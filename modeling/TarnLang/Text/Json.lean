/-
  TarnLang/Text/Json.lean
  =======================
  **JSON text.**  Values of the JSON format whose numbers are natural, with the members
  of an object in a fixed order, and their written form over several lines: two spaces
  of indentation a level, a blank after each colon, and nothing between the brackets of
  what is empty.
-/

namespace TarnLang.Text

inductive JsonValue
  | bool (b : Bool)
  | number (n : Nat)
  | string (s : String)
  | array (items : List JsonValue)
  | object (members : List (String × JsonValue))
deriving Repr

/-- Written form of one character of a JSON string: quotes, backslashes and controls are
    escaped. -/
def jsonChar (c : Char) : List Char :=
  if c = '"' then ['\\', '"']
  else if c = '\\' then ['\\', '\\']
  else if c = '\x08' then ['\\', 'b']
  else if c = '\x0c' then ['\\', 'f']
  else if c = '\n' then ['\\', 'n']
  else if c = '\r' then ['\\', 'r']
  else if c = '\t' then ['\\', 't']
  else if c.toNat < 0x20 then
    ['\\', 'u', '0', '0', Nat.digitChar (c.toNat / 16), Nat.digitChar (c.toNat % 16)]
  else [c]

def jsonString (text : String) : String :=
  String.ofList ('"' :: text.toList.flatMap jsonChar ++ ['"'])

/-- Start of a line at a level of indentation. -/
def jsonIndent (level : Nat) : String := String.ofList (List.replicate (2 * level) ' ')

/-- Parts between brackets, one a line. -/
def bracketed (opening closing : String) (level : Nat) (parts : List String) : String :=
  match parts with
  | [] => opening ++ closing
  | parts =>
    opening ++ "\n" ++ String.intercalate ",\n" (parts.map (jsonIndent (level + 1) ++ ·)) ++ "\n"
      ++ jsonIndent level ++ closing

mutual

/-- Written form of a value at a level of indentation. -/
def JsonValue.write (level : Nat) : JsonValue → String
  | .bool b => if b then "true" else "false"
  | .number n => toString n
  | .string s => jsonString s
  | .array items => bracketed "[" "]" level (JsonValue.writeItems (level + 1) items)
  | .object members => bracketed "\x7b" "\x7d" level (JsonValue.writeMembers (level + 1) members)

/-- Written forms of the items of an array. -/
def JsonValue.writeItems (level : Nat) : List JsonValue → List String
  | [] => []
  | v :: vs => v.write level :: JsonValue.writeItems level vs

/-- Written forms of the members of an object. -/
def JsonValue.writeMembers (level : Nat) : List (String × JsonValue) → List String
  | [] => []
  | (key, v) :: members =>
    (jsonString key ++ ": " ++ v.write level) :: JsonValue.writeMembers level members

end

def JsonValue.pretty (v : JsonValue) : String := v.write 0

end TarnLang.Text
