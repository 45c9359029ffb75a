/-
  TarnLang/Proofs/Resolution/Mirror.lean
  ======================================
  **The scope tree mirrors the program.**  Behind the outermost scope there is one scope for each
  region, in preorder: its parent is the scope of the region right around it, its kind and its
  name come from what it was opened for.

  Parents and kinds follow from the regions that the steps show, by induction on their nesting.
  Names do not: that of a function or procedure tells whether it could be declared, and that
  depends on everything before.  They are found at the step that opens the scope, and no later
  step changes them.
-/
import TarnLang.Proofs.Resolution.Balance

namespace TarnLang

variable {steps : List Step} {regions : List Region} {step : Step} {opening : Opening}

namespace ScopeTree

variable {t t' t'' : ScopeTree}

theorem length_outlines (t : ScopeTree) : t.outlines.length = t.size := by
  simp [outlines, size]

theorem getElem?_outlines (t : ScopeTree) (i : Nat) :
    t.outlines[i]? = (t.get? i).map Scope.outline := by
  simp [outlines, get?]

theorem outlines_pop (t : ScopeTree) : t.pop.outlines = t.outlines := by
  unfold pop
  split
  · rfl
  · rfl

theorem Keeps.refl (t : ScopeTree) : t.Keeps t :=
  fun _ s hs => ⟨s, hs, rfl, rfl, rfl, rfl, fun _ _ h => h⟩

theorem Keeps.trans (h : t.Keeps t') (h' : t'.Keeps t'') : t.Keeps t'' := by
  intro i s hs
  obtain ⟨s', hs', hid, hname, hkind, hparent, hbound⟩ := h i s hs
  obtain ⟨s'', hs'', hid', hname', hkind', hparent', hbound'⟩ := h' i s' hs'
  exact ⟨s'', hs'', hid'.trans hid, hname'.trans hname, hkind'.trans hkind,
    hparent'.trans hparent, fun n id hn => hbound' n id (hbound n id hn)⟩

end ScopeTree

namespace Walk

variable {w : Walk}

/-! ### Opening scopes -/

/-- Name of a scope that is opened from here. -/
def openedName (w : Walk) : Opening → String
  | .callable naming =>
    if (w.declareNaming naming).1 then naming.name.text
    else scopeName naming.name.text naming.name.span
  | .block construct span => scopeName construct span

/-- The walk at the moment when a scope is opened: a function or procedure has been declared. -/
def announce (w : Walk) : Opening → Walk
  | .callable naming => (w.declareNaming naming).2
  | .block .. => w

theorem perform_opening (h : step.opening? = some opening) :
    w.perform step = (w.announce opening).enter (w.openedName opening) opening.kind := by
  cases step with
  | begins naming =>
    cases h
    rfl
  | enters construct span =>
    cases h
    rfl
  | _ => cases h

theorem outlines_declareNaming (w : Walk) (naming : Naming) :
    (w.declareNaming naming).2.scopes.outlines = w.scopes.outlines := by
  unfold declareNaming declare
  dsimp only
  split
  · exact ScopeTree.outlines_define ..
  · rfl

theorem outlines_announce (w : Walk) (opening : Opening) :
    (w.announce opening).scopes.outlines = w.scopes.outlines := by
  cases opening with
  | callable naming => exact w.outlines_declareNaming naming
  | block construct span => rfl

theorem current_announce (w : Walk) (opening : Opening) :
    (w.announce opening).scopes.current = w.scopes.current := by
  cases opening with
  | callable naming => exact (Extends.declareNaming w naming).scopes.current_eq
  | block construct span => rfl

theorem size_announce (w : Walk) (opening : Opening) :
    (w.announce opening).scopes.size = w.scopes.size := by
  rw [← ScopeTree.length_outlines, outlines_announce, ScopeTree.length_outlines]

theorem wellFormed_announce (h : w.scopes.WellFormed) (opening : Opening) :
    (w.announce opening).scopes.WellFormed := by
  cases opening with
  | callable naming => exact wellFormed_perform w (.declares naming) h
  | block construct span => exact h

/-! ### Parents and kinds -/

theorem outlines_perform (h : step.opening? = none) :
    (w.perform step).scopes.outlines = w.scopes.outlines := by
  cases step with
  | uses usage name => rw [perform, (w.scopes_use usage name).1]
  | declares naming => exact w.outlines_declareNaming naming
  | leaves => exact ScopeTree.outlines_pop _
  | begins naming => cases h
  | enters construct span => cases h

theorem outlines_perform_opening (h : step.opening? = some opening) :
    (w.perform step).scopes.outlines =
      w.scopes.outlines ++ [(some w.scopes.current, opening.kind)] := by
  rw [perform_opening h]
  show ((w.announce opening).scopes.push _ _).outlines = _
  rw [ScopeTree.outlines_push, outlines_announce, current_announce]

/-- There are as many scopes more as were opened. -/
theorem size_run (steps : List Step) (w : Walk) :
    (run steps w).scopes.size = w.scopes.size + (steps.filterMap Step.opening?).length := by
  induction steps generalizing w with
  | nil => rfl
  | cons step steps ih =>
    rw [run_cons, ih, ← ScopeTree.length_outlines]
    cases h : step.opening? with
    | none => rw [outlines_perform h, ScopeTree.length_outlines, List.filterMap_cons_none h]
    | some opening =>
      rw [outlines_perform_opening h, List.length_append, ScopeTree.length_outlines,
        List.filterMap_cons_some h, List.length_cons, List.length_cons, List.length_nil]
      omega

/-- **Steps add the scopes of the regions that they show**, and come back to where they began. -/
theorem outlines_run (h : Shows steps regions) (ht : w.scopes.WellFormed) :
    (run steps w).scopes.outlines = w.scopes.outlines ++
      (regionRows w.scopes.current w.scopes.size regions).map fun row =>
        (some row.1, row.2.opening.kind) := by
  induction h generalizing w with
  | nil => exact (List.append_nil _).symm
  | @uses usage name =>
    have hsame : (w.perform (.uses usage name)).scopes.outlines = _ := outlines_perform rfl
    exact hsame.trans (List.append_nil _).symm
  | @declares naming =>
    have hsame : (w.perform (.declares naming)).scopes.outlines = _ := outlines_perform rfl
    exact hsame.trans (List.append_nil _).symm
  | @append steps _ regions _ hsteps _ ih ih' =>
    have hcurrent := (extends_run (.of_shows hsteps) ht).scopes.current_eq
    have hsize : (run steps w).scopes.size =
        w.scopes.size + (regionRows w.scopes.current w.scopes.size regions).length := by
      rw [← ScopeTree.length_outlines, ih ht, List.length_append, List.length_map,
        ScopeTree.length_outlines]
    rw [run_append, ih' (wellFormed_run ht _), ih ht, hcurrent, hsize, regionRows_append,
      List.map_append, List.append_assoc]
  | @region step opening body inside hstep _ ih =>
    -- inside, the region that was opened is around, and the next one comes behind it
    have hcurrent : (w.perform step).scopes.current = w.scopes.size := by
      rw [perform_opening hstep, ← w.size_announce opening]
      rfl
    have hsize : (w.perform step).scopes.size = w.scopes.size + 1 := by
      rw [← ScopeTree.length_outlines, outlines_perform_opening hstep, List.length_append,
        ScopeTree.length_outlines, List.length_singleton]
    have hleave : (run [.leaves] (run body (w.perform step))).scopes.outlines =
        (run body (w.perform step)).scopes.outlines := ScopeTree.outlines_pop _
    rw [run_cons, run_append, hleave, ih (wellFormed_perform w step ht),
      outlines_perform_opening hstep, hcurrent, hsize, regionRows_single, List.append_assoc]
    rfl

/-! ### What later steps leave alone -/

theorem keeps_perform (w : Walk) (step : Step) : w.scopes.Keeps (w.perform step).scopes := by
  have hdeclare : ∀ naming, w.scopes.Keeps (w.declareNaming naming).2.scopes := by
    intro naming
    unfold declareNaming declare
    dsimp only
    split
    · exact ScopeTree.keeps_define w.scopes _ _
    · exact ScopeTree.Keeps.refl _
  cases step with
  | uses usage name =>
    rw [perform, (w.scopes_use usage name).1]
    exact ScopeTree.Keeps.refl _
  | declares naming => exact hdeclare naming
  | begins naming =>
    obtain ⟨scope, hbegins⟩ := w.perform_begins naming
    rw [hbegins]
    exact (hdeclare naming).trans (ScopeTree.keeps_push _ scope .callable)
  | enters construct span => exact ScopeTree.keeps_push w.scopes _ .block
  | leaves => exact ScopeTree.keeps_pop _

theorem keeps_run (steps : List Step) (w : Walk) : w.scopes.Keeps (run steps w).scopes :=
  run_keeps (I := fun w' => w.scopes.Keeps w'.scopes)
    (fun w' step h => h.trans (w'.keeps_perform step)) (ScopeTree.Keeps.refl _) steps

/-- What was found stays found, wherever the walk goes. -/
structure Finds (w w' : Walk) : Prop where
  entries : w.symbols.entries.toList <+: w'.symbols.entries.toList
  errors : w.errors.toList <+: w'.errors.toList

theorem finds_perform (w : Walk) (step : Step) : w.Finds (w.perform step) := by
  cases step with
  | uses usage name =>
    have h := Extends.use w usage name
    exact ⟨h.entries, h.errors⟩
  | declares naming =>
    have h := Extends.declareNaming w naming
    exact ⟨h.entries, h.errors⟩
  | begins naming =>
    have h := Extends.declareNaming w naming
    obtain ⟨scope, hbegins⟩ := w.perform_begins naming
    rw [hbegins]
    exact ⟨h.entries, h.errors⟩
  | enters construct span => exact ⟨List.prefix_rfl, List.prefix_rfl⟩
  | leaves => exact ⟨List.prefix_rfl, List.prefix_rfl⟩

theorem finds_run (steps : List Step) (w : Walk) : w.Finds (run steps w) :=
  run_keeps (I := w.Finds)
    (fun w' step h => ⟨h.entries.trans (w'.finds_perform step).entries,
      h.errors.trans (w'.finds_perform step).errors⟩)
    ⟨List.prefix_rfl, List.prefix_rfl⟩ steps

/-- A scope that was opened is found under its number behind any number of steps. -/
theorem exists_opened (ht : w.scopes.WellFormed) (h : step.opening? = some opening)
    (rest : List Step) : ∃ s, (run (step :: rest) w).scopes.get? w.scopes.size = some s ∧
      s.id = w.scopes.size ∧ s.name = w.openedName opening ∧ s.kind = opening.kind ∧
        s.parent = some w.scopes.current := by
  have hopened := ScopeTree.get?_push_size (wellFormed_announce ht opening)
    (w.openedName opening) opening.kind
  rw [size_announce, current_announce] at hopened
  have hkeeps := keeps_run rest (w.perform step)
  rw [perform_opening h] at hkeeps
  obtain ⟨s, hs, hid, hname, hkind, hparent, -⟩ := hkeeps _ _ hopened
  rw [run_cons, perform_opening h]
  exact ⟨s, hs, hid, hname, hkind, hparent⟩

end Walk

/-! ### Programs -/

/-- How the scope of a region is named, which is the one that is opened behind `i` others, in the
    scope `up`.  A function or procedure gives its name if it was declared, else its name with
    the place of that; any other construct gives what it is with its place. -/
def Program.Names (p : Program) (i : Nat) (up : ScopeId) (name : String) : Opening → Prop
  | .block construct span =>
    name = construct ++ "@" ++
      (toString span.start.line.toNat ++ ":" ++ toString span.start.column.toNat)
  | .callable naming => ∃ before rest, p.script = before ++ .begins naming :: rest ∧
      (before.filterMap Step.opening?).length = i ∧
      match ((Walk.run before .start).declareNaming naming).1 with
      | true => name = naming.name.text ∧ ∃ s ∈ (resolve p).symbols.entries,
          s.name = naming.name ∧ s.declaration = naming.declaration ∧ s.scope = up
      | false =>
        name = naming.name.text ++ "@" ++ (toString naming.name.span.start.line.toNat ++ ":" ++
          toString naming.name.span.start.column.toNat) ∧
        ∃ previous, .redefinition naming.name previous ∈ (resolve p).errors

theorem Program.shows_script (p : Program) : Shows p.script p.regions := .of_statements _

/-- Where a scope is opened in the script of a program. -/
theorem Program.exists_opening {p : Program} {i up : Nat} {region : Region}
    (h : p.regionRows[i]? = some (up, region)) : ∃ before step rest,
      p.script = before ++ step :: rest ∧ step.opening? = some region.opening ∧
        (before.filterMap Step.opening?).length = i := by
  have hopenings : p.script.filterMap Step.opening? = p.regionRows.map (·.2.opening) :=
    p.shows_script.filterMap_opening? 0 1
  have hi : i < p.regionRows.length := (List.getElem?_eq_some_iff.mp h).1
  have hsplit : p.regionRows = p.regionRows.take i ++ (up, region) :: p.regionRows.drop (i + 1) := by
    obtain ⟨hlt, hget⟩ := List.getElem?_eq_some_iff.mp h
    rw [← hget, ← List.drop_eq_getElem_cons hlt, List.take_append_drop]
  rw [hsplit, List.map_append, List.map_cons] at hopenings
  obtain ⟨front, back, hscript, hfront, hback⟩ := List.filterMap_eq_append_iff.mp hopenings
  obtain ⟨quiet, step, rest, rfl, hquiet, hstep, -⟩ := List.filterMap_eq_cons_iff.mp hback
  refine ⟨front ++ quiet, step, rest, by rw [hscript, List.append_assoc], hstep, ?_⟩
  rw [List.filterMap_append, hfront, List.filterMap_eq_nil_iff.mpr hquiet, List.append_nil,
    List.length_map, List.length_take]
  exact Nat.min_eq_left (Nat.le_of_lt hi)

theorem Walk.size_start : Walk.start.scopes.size = 1 := rfl

/-- A function or procedure is in the table of symbols, or reported, once it has been declared. -/
theorem Program.names_callable {p : Program} {before rest : List Step} {naming : Naming}
    (h : p.script = before ++ .begins naming :: rest) :
    p.Names (before.filterMap Step.opening?).length (Walk.run before .start).scopes.current
      ((Walk.run before .start).openedName (.callable naming)) (.callable naming) := by
  refine ⟨before, rest, h, rfl, ?_⟩
  have hdeclares := Walk.declares_declareNaming (Walk.linked_run before) naming
  have hfinds := Walk.finds_run rest ((Walk.run before .start).perform (.begins naming))
  rw [← Walk.run_cons, ← Walk.run_append, ← h] at hfinds
  obtain ⟨scope, hbegins⟩ := (Walk.run before .start).perform_begins naming
  rw [hbegins] at hfinds
  obtain ⟨hentries, herrors⟩ := hfinds
  rw [Walk.openedName]
  generalize (Walk.run before .start).declareNaming naming = outcome at hdeclares hentries herrors
  rw [Walk.resolve_eq_run]
  cases hdeclares with
  | accepts _ _ _ =>
    refine ⟨rfl, (Walk.run before .start).symbolOf naming, ?_, rfl, rfl, rfl⟩
    apply Array.mem_toList_iff.mp
    apply hentries.subset
    exact Array.mem_toList_iff.mpr (Array.mem_push_self ..)
  | @refuses previous _ =>
    have hmem := herrors.subset (Array.mem_toList_iff.mpr (Array.mem_push_self ..))
    refine ⟨rfl, previous, ?_⟩
    show _ ∈ _ ++ _ ++ _
    rw [Array.append_assoc]
    exact Array.mem_append_left _ (Array.mem_toList_iff.mp hmem)

/-- **The scope tree mirrors the program**, for trees of any shape.  The scopes by number are the
    outermost one and one for each region in preorder, which stands in the scope of the region
    right around it, if there is one. -/
theorem scopes_mirror_program (p : Program) :
    (∃ s, (resolve p).scopes.get? 0 = some s ∧ s.id = 0 ∧ s.name = "global" ∧ s.kind = .root ∧
      s.parent = none) ∧
    (resolve p).scopes.size = p.regionRows.length + 1 ∧
    ∀ i up region, p.regionRows[i]? = some (up, region) →
      (up = 0 ∧ region ∈ p.regions ∨ ∃ j above outer, up = j + 1 ∧ j < i ∧
        p.regionRows[j]? = some (above, outer) ∧ region ∈ outer.inside) ∧
      ∃ s, (resolve p).scopes.get? (i + 1) = some s ∧ s.id = i + 1 ∧ s.parent = some up ∧
        s.kind = region.opening.kind ∧ p.Names i up s.name region.opening := by
  have hscopes : (resolve p).scopes = (Walk.run p.script .start).scopes := by
    rw [Walk.resolve_eq_run]
    rfl
  have houtlines : (resolve p).scopes.outlines =
      (none, .root) :: p.regionRows.map fun row => (some row.1, row.2.opening.kind) := by
    rw [hscopes]
    exact Walk.outlines_run p.shows_script ScopeTree.wellFormed_fresh
  have hwellFormed : Walk.start.scopes.WellFormed := ScopeTree.wellFormed_fresh
  refine ⟨?_, ?_, fun i up region hrow => ⟨?_, ?_⟩⟩
  · have hkeeps := Walk.keeps_run p.script .start
    rw [← hscopes] at hkeeps
    obtain ⟨s, hs, hid, hname, hkind, hparent, -⟩ := hkeeps 0 _ rfl
    exact ⟨s, hs, hid, hname, hkind, hparent⟩
  · rw [← ScopeTree.length_outlines, houtlines, List.length_cons, List.length_map]
  · rcases around_of_regionRows p.regions hrow with h | ⟨j, above, outer, hup, hj, houter, hs⟩
    · exact .inl h
    · exact .inr ⟨j, above, outer, hup.trans (Nat.add_comm 1 j), hj, houter, hs⟩
  · obtain ⟨before, step, rest, hscript, hstep, rfl⟩ := Program.exists_opening hrow
    have hsize : (Walk.run before .start).scopes.size =
        (before.filterMap Step.opening?).length + 1 := by
      rw [Walk.size_run, Walk.size_start, Nat.add_comm]
    obtain ⟨s, hs, hid, hname, hkind, hparent⟩ := Walk.exists_opened
      (Walk.wellFormed_run hwellFormed before) hstep rest
    rw [← Walk.run_append, ← hscript, ← hscopes, hsize] at hs
    rw [hsize] at hid
    -- the scope it was opened in is the one of the row
    have hup : (Walk.run before .start).scopes.current = up := by
      have houtline := (resolve p).scopes.getElem?_outlines
        ((before.filterMap Step.opening?).length + 1)
      rw [houtlines, List.getElem?_cons_succ, List.getElem?_map, hrow, hs] at houtline
      have hparents := congrArg Prod.fst (Option.some.inj houtline)
      exact Option.some.inj (hparent.symm.trans hparents.symm)
    subst hup
    refine ⟨s, hs, hid, hparent, hkind, ?_⟩
    rw [hname]
    cases step with
    | begins naming =>
      obtain hopening := Option.some.inj hstep
      rw [← hopening]
      exact Program.names_callable hscript
    | enters construct span =>
      obtain hopening := Option.some.inj hstep
      rw [← hopening]
      rfl
    | _ => cases hstep

/-- The body of an `else` stands beside that of its `if`, in the scope around both. -/
example :
    let nested : Node := .block ⟨[], default⟩
    let branches : Node :=
      .ifStmt default ⟨[nested], default⟩ (.elseClause ⟨[], default⟩ default) default
    (Program.mk [.block ⟨[branches], default⟩] default).regionRows.map (·.1) = [0, 1, 2, 1] := by
  decide

end TarnLang
