/-
  TarnLang/Proofs/Command/SymbolOrder.lean
  ========================================
  **Symbols are listed in the order of the text.**  A listing sorts symbols by the spans of their
  names, and by nothing else.  That is enough for one order, because each symbol of a program comes
  from a name of its own: in the order in which they were declared, the names of symbols are tokens
  of the text in the order of the text, and tokens start one behind the other.

  So whatever order a table gives its symbols in, the listing is the same.
-/
import Mathlib.Data.List.Nodup
import TarnLang.Command.Listing
import TarnLang.Proofs.Resolution.Order
import TarnLang.Proofs.Resolution.Record

namespace TarnLang

/-! ### The order of spans -/

namespace Span

variable {a b c : Span}

theorem start_le_of_le (h : a ≤ b) : a.start ≤ b.start := by
  rcases h with hlt | ⟨hstart, -⟩
  · exact Position.le_of_lt hlt
  · exact hstart ▸ Position.le_refl a.start

theorem le_trans (h : a ≤ b) (h' : b ≤ c) : a ≤ c := by
  rcases h with hlt | ⟨hstart, hstop⟩
  · exact Or.inl (Position.lt_of_lt_of_le hlt (start_le_of_le h'))
  · rcases h' with hlt' | ⟨hstart', hstop'⟩
    · exact Or.inl (hstart ▸ hlt')
    · exact Or.inr ⟨hstart.trans hstart', Position.le_trans hstop hstop'⟩

theorem le_total (a b : Span) : a ≤ b ∨ b ≤ a := by
  by_cases hlt : a.start < b.start
  · exact Or.inl (Or.inl hlt)
  · by_cases hlt' : b.start < a.start
    · exact Or.inr (Or.inl hlt')
    · have hstart : a.start = b.start :=
        Position.le_antisymm (Position.le_of_not_lt hlt') (Position.le_of_not_lt hlt)
      by_cases hstop : a.stop ≤ b.stop
      · exact Or.inl (Or.inr ⟨hstart, hstop⟩)
      · have hstop' : b.stop ≤ a.stop :=
          Position.le_of_not_lt fun h => hstop (Position.le_of_lt h)
        exact Or.inr (Or.inr ⟨hstart.symm, hstop'⟩)

end Span

/-! ### Sorted symbols -/

theorem pairwise_sortedSymbols (symbols : List Symbol) :
    (Listing.sortedSymbols symbols).Pairwise fun a b => a.span ≤ b.span := by
  have htrans : ∀ a b c : Symbol, decide (a.span ≤ b.span) = true →
      decide (b.span ≤ c.span) = true → decide (a.span ≤ c.span) = true := fun a b c hab hbc =>
    decide_eq_true (Span.le_trans (of_decide_eq_true hab) (of_decide_eq_true hbc))
  have htotal : ∀ a b : Symbol, (decide (a.span ≤ b.span) || decide (b.span ≤ a.span)) = true := by
    intro a b
    simpa using Span.le_total a.span b.span
  exact (List.pairwise_mergeSort htrans htotal symbols).imp of_decide_eq_true

/-- Symbols whose names start one behind the other. -/
def SymbolsInOrder (symbols : List Symbol) : Prop :=
  symbols.Pairwise fun a b => a.span.start < b.span.start

namespace SymbolsInOrder

variable {symbols listed : List Symbol} {a b : Symbol}

/-- Symbols whose names start in one place are one symbol. -/
theorem eq_of_start_eq (h : SymbolsInOrder symbols) (ha : a ∈ symbols) (hb : b ∈ symbols)
    (hstart : a.span.start = b.span.start) : a = b := by
  have hnodup : (symbols.map fun s => s.span.start).Nodup :=
    List.pairwise_map.mpr (h.imp fun hlt => Position.ne_of_lt hlt)
  exact List.inj_on_of_nodup_map hnodup ha hb hstart

/-- **Sorting puts symbols back in order**, whatever order they come in. -/
theorem sortedSymbols_eq (h : SymbolsInOrder symbols) (hperm : listed.Perm symbols) :
    Listing.sortedSymbols listed = symbols := by
  have hsorted : (Listing.sortedSymbols listed).Perm symbols :=
    (List.mergeSort_perm listed _).trans hperm
  have hsymbols : symbols.Pairwise fun a b => a.span ≤ b.span := h.imp Or.inl
  refine List.Perm.eq_of_pairwise ?_ (pairwise_sortedSymbols listed) hsymbols hsorted
  intro a b ha hb hab hba
  exact h.eq_of_start_eq (hsorted.mem_iff.mp ha) hb
    (Position.le_antisymm (Span.start_le_of_le hab) (Span.start_le_of_le hba))

end SymbolsInOrder

/-! ### Symbols of a text -/

/-- What is a first declaration is a declaration, whatever stands in front. -/
theorem filterMap_firstAt_sublist (earlier es : List Event) :
    ((withEarlier earlier es).filterMap fun split => firstAt split.1 split.2).Sublist
      (es.filterMap Event.declared?) := by
  induction es generalizing earlier with
  | nil => exact List.Sublist.refl _
  | cons e es ih =>
    have hrest := ih (earlier ++ [e])
    cases hd : e.declared? with
    | none =>
      have hnone : firstAt earlier e = none := by rw [firstAt, hd, Option.filter_none]
      simpa only [withEarlier, List.filterMap_cons, hd, hnone] using hrest
    | some d =>
      cases hfirst : firstAt earlier e with
      | none =>
        simp only [withEarlier, List.filterMap_cons, hd, hfirst]
        exact hrest.cons d
      | some d' =>
        have hsame : d' = d :=
          Option.some.inj ((Option.filter_eq_some_iff.mp hfirst).1.symm.trans hd)
        simp only [withEarlier, List.filterMap_cons, hd, hfirst, hsame]
        exact hrest.cons_cons d

/-- First declarations are among the declarations, in their order. -/
theorem names_firsts_sublist (es : List Event) :
    ((firsts es).map Declared.name).Sublist (declaredNames es) :=
  (filterMap_firstAt_sublist [] es).map Declared.name

variable {source : String} {p : Program}

/-- **The names of symbols are tokens of the text**, in the order of the text and each for one
    symbol. -/
theorem symbol_names_sublist (hsize : source.utf8ByteSize ≤ 2 ^ 32 - 2)
    (hp : parse (tokenize source).tokens = .ok p) :
    ((resolve p).symbols.entries.toList.map Symbol.name).Sublist
      (tokenize source).tokens.toList := by
  have hleaves : p.leaves.Sublist (tokenize source).tokens.toList := by
    rw [leaves_of_parse hp]
    exact List.filter_sublist.trans (List.takeWhile_sublist _)
  have hnames : (resolve p).symbols.entries.toList.map Symbol.name =
      (firsts p.events).map Declared.name := by
    rw [(resolve_records (fit_of_parse hsize hp)).2, List.map_map]
    rfl
  rw [hnames]
  exact ((names_firsts_sublist p.events).trans p.inTextOrder_events.declared_sublist).trans hleaves

theorem symbolsInOrder_resolve (hsize : source.utf8ByteSize ≤ 2 ^ 32 - 2)
    (hp : parse (tokenize source).tokens = .ok p) :
    SymbolsInOrder (resolve p).symbols.entries.toList := by
  have horder : InOrder (tokenize source).tokens.toList := inOrder_tokenize (by omega)
  have hnames := horder.apart.sublist (symbol_names_sublist hsize hp)
  exact (List.pairwise_map.mp hnames).imp fun hapart => hapart.1

/-- **The listing of symbols does not depend on the order in which a table gives them.**  No two
    symbols of a text have the same span.  Every order of them is sorted into one and the same
    list, which has each of them once and their names as they stand among the tokens of the text,
    and the whole listing is the same. -/
theorem symbol_listing_unique (hsize : source.utf8ByteSize ≤ 2 ^ 32 - 2)
    (hp : parse (tokenize source).tokens = .ok p) :
    let symbols := (resolve p).symbols.entries.toList
    (symbols.Pairwise fun a b => a.span ≠ b.span) ∧
    (∀ listed : List Symbol, listed.Perm symbols →
      Listing.sortedSymbols listed = Listing.sortedSymbols symbols ∧
      (Listing.sortedSymbols listed).Perm symbols ∧
      ((Listing.sortedSymbols listed).Pairwise fun a b => a.span.start < b.span.start) ∧
      ((Listing.sortedSymbols listed).map Symbol.name).Sublist (tokenize source).tokens.toList) ∧
    ∀ (colors : Bool) (r : Resolution), r.scopes = (resolve p).scopes →
      r.symbols.entries.toList.Perm symbols →
        Listing.resolution colors r = Listing.resolution colors (resolve p) := by
  have horder := symbolsInOrder_resolve hsize hp
  have hself := horder.sortedSymbols_eq (.refl _)
  refine ⟨?_, fun listed hperm => ?_, fun colors r hscopes hperm => ?_⟩
  · refine horder.imp fun hlt hspan => ?_
    exact Position.ne_of_lt hlt (congrArg Span.start hspan)
  · rw [hself, horder.sortedSymbols_eq hperm]
    exact ⟨rfl, .refl _, horder, symbol_names_sublist hsize hp⟩
  · have hsize : r.symbols.size = (resolve p).symbols.size := hperm.length_eq
    rw [Listing.resolution, Listing.resolution, hscopes, hsize, hself,
      horder.sortedSymbols_eq hperm]

/-- Symbols of two scopes, with one name in both: from behind they are listed as from the front, and
    the listing starts with the function. -/
theorem symbol_listing_from_behind :
    ∃ p, parse (tokenize "fn main(b, a) \x7b let c = 1; \x7d let b;").tokens = .ok p ∧
      (resolve p).symbols.entries.toList.reverse.map (·.name.text) = ["b", "c", "a", "b", "main"] ∧
      (Listing.sortedSymbols (resolve p).symbols.entries.toList.reverse).map (·.name.text) =
        ["main", "b", "a", "c", "b"] := by
  have hnames : (parse (tokenize "fn main(b, a) \x7b let c = 1; \x7d let b;").tokens).toOption.map
      (fun p => (resolve p).symbols.entries.toList.map (·.name.text)) =
        some ["main", "b", "a", "c", "b"] := by
    decide +kernel
  cases h : parse (tokenize "fn main(b, a) \x7b let c = 1; \x7d let b;").tokens with
  | ok p =>
    rw [h] at hnames
    have hnames : (resolve p).symbols.entries.toList.map (·.name.text) =
        ["main", "b", "a", "c", "b"] := Option.some.inj hnames
    have hsorted := (symbolsInOrder_resolve (by decide) h).sortedSymbols_eq (.refl _)
    obtain ⟨-, hunique, -⟩ := symbol_listing_unique (by decide) h
    obtain ⟨hsame, -, -⟩ := hunique _ (List.reverse_perm _)
    refine ⟨p, rfl, ?_, ?_⟩
    · rw [List.map_reverse, hnames]
      rfl
    · rw [hsame, hsorted, hnames]
  | error e =>
    rw [h] at hnames
    cases hnames

end TarnLang
