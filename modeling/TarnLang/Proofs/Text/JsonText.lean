/-
  TarnLang/Proofs/Text/JsonText.lean
  ==================================
  **What is written is JSON.**  `JsonText` is the grammar of JSON texts, for the values that there
  are here: which texts stand for a value, with blank space wherever the format allows it.  It does
  not know how values are laid out over lines.  The written form of a value is one of its texts, at
  every level of indentation.
-/
import Mathlib.Data.List.Forall2
import TarnLang.Text.Json

namespace TarnLang.Text

/-! ### The grammar -/

/-- Blank space between the parts of a text. -/
def JsonBlank (w : List Char) : Prop := ∀ c ∈ w, c ∈ [' ', '\t', '\n', '\r']

/-- Letters behind a backslash, and what they stand for. -/
def jsonEscapes : List (Char × Char) :=
  [('"', '"'), ('\\', '\\'), ('/', '/'), ('b', '\x08'), ('f', '\x0c'), ('n', '\n'), ('r', '\r'),
    ('t', '\t')]

/-- Characters of a string, and how they are written between its quotes: as they are, by a letter,
    or by a code with four hexadecimal digits, of which the first two are zeros here. -/
inductive JsonChars : List Char → List Char → Prop
  | nil : JsonChars [] []
  | plain {c text written} (hquote : c ≠ '"') (hslash : c ≠ '\\') (hcontrol : 0x20 ≤ c.toNat)
    (h : JsonChars text written) : JsonChars (c :: text) (c :: written)
  | escape {letter c text written} (hletter : (letter, c) ∈ jsonEscapes)
    (h : JsonChars text written) : JsonChars (c :: text) ('\\' :: letter :: written)
  | code {high low text written} (hhigh : high < 16) (hlow : low < 16)
    (h : JsonChars text written) :
    JsonChars (Char.ofNat (16 * high + low) :: text)
      ('\\' :: 'u' :: '0' :: '0' :: Nat.digitChar high :: Nat.digitChar low :: written)

/-- A row of parts with commas between them and blank space around each. -/
inductive JsonRow {α : Type} (Part : α → List Char → Prop) : List α → List Char → Prop
  | nil {blank} (h : JsonBlank blank) : JsonRow Part [] blank
  | last {x before part behind} (hbefore : JsonBlank before) (hpart : Part x part)
    (hbehind : JsonBlank behind) : JsonRow Part [x] (before ++ part ++ behind)
  | cons {x y xs before part behind row} (hbefore : JsonBlank before) (hpart : Part x part)
    (hbehind : JsonBlank behind) (h : JsonRow Part (y :: xs) row) :
    JsonRow Part (x :: y :: xs) (before ++ part ++ behind ++ ',' :: row)

mutual

/-- Texts that stand for a value. -/
inductive JsonText : JsonValue → List Char → Prop
  | true : JsonText (.bool true) ['t', 'r', 'u', 'e']
  | false : JsonText (.bool false) ['f', 'a', 'l', 's', 'e']
  | number (n : Nat) : JsonText (.number n) (Nat.toDigits 10 n)
  | string {s written} (h : JsonChars s.toList written) :
    JsonText (.string s) ('"' :: (written ++ ['"']))
  | array {items row} (h : JsonRow JsonText items row) :
    JsonText (.array items) ('[' :: (row ++ [']']))
  | object {members row} (h : JsonRow JsonMember members row) :
    JsonText (.object members) ('\x7b' :: (row ++ ['\x7d']))

/-- Texts that stand for a member of an object: its key, a colon and its value. -/
inductive JsonMember : String × JsonValue → List Char → Prop
  | mk {key v written before behind text} (hkey : JsonChars key.toList written)
    (hbefore : JsonBlank before) (hbehind : JsonBlank behind) (h : JsonText v text) :
    JsonMember (key, v) ('"' :: (written ++ ['"']) ++ before ++ ':' :: (behind ++ text))

end

/-! ### Strings -/

/-- Each character is written by its letter, by its code or as it is. -/
theorem JsonChars.jsonChar {text written : List Char} (c : Char) (h : JsonChars text written) :
    JsonChars (c :: text) (jsonChar c ++ written) := by
  unfold Text.jsonChar
  -- first come the characters that have a letter
  repeat
    split
    · subst c
      exact .escape (by decide) h
  split
  · have hcode : JsonChars (Char.ofNat (16 * (c.toNat / 16) + c.toNat % 16) :: text) _ :=
      .code (by omega) (by omega) h
    rw [Nat.div_add_mod, Char.ofNat_toNat] at hcode
    exact hcode
  · exact .plain ‹_› ‹_› (by omega) h

theorem jsonChars_flatMap (text : List Char) : JsonChars text (text.flatMap jsonChar) := by
  induction text with
  | nil => exact .nil
  | cons c text ih =>
    rw [List.flatMap_cons]
    exact ih.jsonChar c

theorem toList_jsonString (s : String) :
    (jsonString s).toList = '"' :: (s.toList.flatMap jsonChar ++ ['"']) := by
  rw [jsonString, String.toList_ofList, List.cons_append]

/-! ### Rows -/

theorem jsonBlank_replicate (n : Nat) : JsonBlank (List.replicate n ' ') := by
  intro c hc
  rw [List.eq_of_mem_replicate hc]
  decide

section Row

variable {α : Type} {Part : α → List Char → Prop} {x : α} {xs : List α} {part : String}
variable {parts : List String} {indent : String} {behind : List Char}

/-- Parts that are written one a line, with commas at the ends of lines, are a row. -/
theorem jsonRow_intercalate (hindent : JsonBlank indent.toList) (hbehind : JsonBlank behind)
    (hpart : Part x part.toList) (h : List.Forall₂ (fun x part => Part x part.toList) xs parts) :
    JsonRow Part (x :: xs) ('\n' ::
      (String.intercalate ",\n" ((part :: parts).map (indent ++ ·))).toList ++ behind) := by
  have hbefore : JsonBlank ('\n' :: indent.toList) :=
    List.forall_mem_cons.mpr ⟨by decide, hindent⟩
  induction h generalizing x part with
  | nil =>
    have hlast := JsonRow.last hbefore hpart hbehind
    simpa [String.intercalate_singleton] using hlast
  | @cons y next ys nexts hnext _ ih =>
    have hcons := JsonRow.cons hbefore hpart (List.forall_mem_nil _) (ih hnext)
    simpa [String.intercalate_cons_cons] using hcons

/-- **Parts between brackets are a row.** -/
theorem exists_jsonRow_bracketed {xs : List α} (opening closing : String) (level : Nat)
    (h : List.Forall₂ (fun x part => Part x part.toList) xs parts) :
    ∃ row, JsonRow Part xs row ∧
      (bracketed opening closing level parts).toList = opening.toList ++ row ++ closing.toList := by
  cases h with
  | nil => exact ⟨[], .nil (List.forall_mem_nil _), by simp [bracketed]⟩
  | @cons x part xs parts hpart hparts =>
    have hindent : ∀ level, JsonBlank (jsonIndent level).toList := by
      intro level
      rw [jsonIndent, String.toList_ofList]
      exact jsonBlank_replicate _
    have hbehind : JsonBlank ('\n' :: (jsonIndent level).toList) :=
      List.forall_mem_cons.mpr ⟨by decide, hindent level⟩
    refine ⟨_, jsonRow_intercalate (hindent (level + 1)) hbehind hpart hparts, ?_⟩
    simp [bracketed]

end Row

/-! ### Values -/

mutual

/-- **The written form of a value is a text that stands for it.** -/
theorem jsonText_write (level : Nat) : ∀ v : JsonValue, JsonText v (v.write level).toList
  | .bool true => by
    rw [JsonValue.write]
    exact .true
  | .bool false => by
    rw [JsonValue.write]
    exact .false
  | .number n => by
    rw [JsonValue.write, Nat.toString_eq_repr, Nat.toList_repr]
    exact .number n
  | .string s => by
    rw [JsonValue.write, toList_jsonString]
    exact .string (jsonChars_flatMap s.toList)
  | .array items => by
    obtain ⟨row, hrow, heq⟩ :=
      exists_jsonRow_bracketed "[" "]" level (forall₂_writeItems (level + 1) items)
    rw [JsonValue.write, heq]
    exact .array hrow
  | .object members => by
    obtain ⟨row, hrow, heq⟩ :=
      exists_jsonRow_bracketed "\x7b" "\x7d" level (forall₂_writeMembers (level + 1) members)
    rw [JsonValue.write, heq]
    exact .object hrow

theorem forall₂_writeItems (level : Nat) : ∀ items : List JsonValue,
    List.Forall₂ (fun v part => JsonText v part.toList) items (JsonValue.writeItems level items)
  | [] => .nil
  | v :: items => .cons (jsonText_write level v) (forall₂_writeItems level items)

theorem forall₂_writeMembers (level : Nat) : ∀ members : List (String × JsonValue),
    List.Forall₂ (fun member part => JsonMember member part.toList) members
      (JsonValue.writeMembers level members)
  | [] => .nil
  | (key, v) :: members => by
    refine .cons ?_ (forall₂_writeMembers level members)
    have hblank : JsonBlank [' '] := jsonBlank_replicate 1
    have hmember := JsonMember.mk (jsonChars_flatMap key.toList) (List.forall_mem_nil _) hblank
      (jsonText_write level v)
    simpa [toList_jsonString] using hmember

end

end TarnLang.Text
