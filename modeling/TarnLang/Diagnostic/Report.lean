/-
  TarnLang/Diagnostic/Report.lean
  ===============================
  **Reports.**  The diagnostics of one run as JSON: which phase made them, whether the
  file got through, and for every site the text of the line where it starts.
-/
import TarnLang.Diagnostic.Basic
import TarnLang.Diagnostic.Code
import TarnLang.Diagnostic.Layout
import TarnLang.Text.Json

namespace TarnLang

open Text (JsonValue)

structure Report where
  source : String
  file : String
  phase : String
  diagnostics : List Diagnostic

namespace Report

def version : Nat := 1

def success (r : Report) : Bool := r.diagnostics.isEmpty

def errorCount (r : Report) : Nat := r.diagnostics.length

def spanValue (s : Span) : JsonValue :=
  .object [("start_line", .number s.start.line.toNat), ("start_col", .number s.start.column.toNat),
    ("end_line", .number s.stop.line.toNat), ("end_col", .number s.stop.column.toNat)]

def labelValue (lines : LineMap) (l : Label) : JsonValue :=
  .object [("message", .string l.message), ("span", spanValue l.span),
    ("source_line", .string (lines.lineTextOrEmpty l.span.start.line))]

/-- A member that is left out when there is no value. -/
def optionalMember {α : Type} (key : String) (write : α → JsonValue) (x : Option α) :
    List (String × JsonValue) :=
  (x.map fun x => (key, write x)).toList

/-- A diagnostic as an object.  The category is left out for a code that is not known. -/
def diagnosticValue (lines : LineMap) (d : Diagnostic) : JsonValue :=
  let category := (ErrorCode.ofText? d.code).map (·.category.label)
  .object ([("code", .string d.code)] ++ optionalMember "category" .string category
    ++ [("message", .string d.message)] ++ optionalMember "primary" (labelValue lines) d.primary
    ++ optionalMember "related" (labelValue lines) d.related
    ++ optionalMember "note" .string d.note ++ optionalMember "help" .string d.help)

def value (r : Report) : JsonValue :=
  let lines := LineMap.ofString r.source
  .object [("version", .number version), ("file", .string r.file), ("phase", .string r.phase),
    ("success", .bool r.success), ("error_count", .number r.errorCount),
    ("diagnostics", .array (r.diagnostics.map (diagnosticValue lines)))]

def write (r : Report) : String := r.value.pretty

end Report

end TarnLang
