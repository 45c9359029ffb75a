/-
  TarnLang/Text/Quoted.lean
  =========================
  **Quoted text.**  A string between double quotes, with backslash escapes for quotes,
  backslashes and the usual controls.  Characters that show nothing of their own are
  written as `\u` with their code point in hexadecimal digits between braces.
-/
import TarnLang.Text.Hidden

namespace TarnLang.Text

/-- Hexadecimal digits of a number, in lower case. -/
def hexDigits (n : Nat) : List Char := Nat.toDigits 16 n

def quotedChar (c : Char) : List Char :=
  if c = '"' then ['\\', '"']
  else if c = '\\' then ['\\', '\\']
  else if c = '\n' then ['\\', 'n']
  else if c = '\r' then ['\\', 'r']
  else if c = '\t' then ['\\', 't']
  else if c = '\x00' then ['\\', '0']
  else if isHidden c then ['\\', 'u', '\x7b'] ++ hexDigits c.toNat ++ ['\x7d']
  else [c]

def quoted (text : String) : String :=
  String.ofList ('"' :: text.toList.flatMap quotedChar ++ ['"'])

end TarnLang.Text
