/-
  TarnLang/Text/Dump.lean
  =======================
  **Dumps.**  Nested records as text, one field a line, four spaces of indentation a
  level, and a comma after every field and every item.
-/
import TarnLang.Text.Style

namespace TarnLang.Text

/-- What a dump shows: a word, a list, a record with named fields, or one value under a
    name. -/
inductive Dump
  | atom (text : String)
  | list (items : List Dump)
  | record (name : String) (fields : List (String × Dump))
  | tagged (name : String) (inner : Dump)
deriving Repr

/-- Start of a line at a level of indentation. -/
def dumpIndent (level : Nat) : String := repeated (4 * level) ' '

mutual

/-- Written form of a dump at a level of indentation. -/
def Dump.write (level : Nat) : Dump → String
  | .atom text => text
  | .list [] => "[]"
  | .list items => "[\n" ++ Dump.writeItems (level + 1) items ++ dumpIndent level ++ "]"
  | .record name fields =>
    name ++ " \x7b\n" ++ Dump.writeFields (level + 1) fields ++ dumpIndent level ++ "\x7d"
  | .tagged name inner =>
    name ++ "(\n" ++ dumpIndent (level + 1) ++ inner.write (level + 1) ++ ",\n" ++ dumpIndent level
      ++ ")"

def Dump.writeItems (level : Nat) : List Dump → String
  | [] => ""
  | d :: ds => dumpIndent level ++ d.write level ++ ",\n" ++ Dump.writeItems level ds

def Dump.writeFields (level : Nat) : List (String × Dump) → String
  | [] => ""
  | (name, d) :: fields =>
    dumpIndent level ++ name ++ ": " ++ d.write level ++ ",\n" ++ Dump.writeFields level fields

end

def Dump.pretty (d : Dump) : String := d.write 0

end TarnLang.Text
