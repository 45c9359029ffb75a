/-
  TarnLang/Diagnostic/Basic.lean
  ==============================
  **Diagnostics.**  An error as it is shown: a code, a message, the site it is about, at
  most one related site, and perhaps a note and some help.  Errors of the whole program
  have no site.
-/
import TarnLang.Span

namespace TarnLang

/-- A span and what to say beside it. -/
structure Label where
  span : Span
  message : String
deriving DecidableEq, Repr

structure Diagnostic where
  code : String
  message : String
  primary : Option Label := none
  related : Option Label := none
  note : Option String := none
  help : Option String := none
deriving DecidableEq, Repr

def Diagnostic.primarySpan? (d : Diagnostic) : Option Span := d.primary.map (·.span)

end TarnLang
