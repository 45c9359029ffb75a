/-
  TarnLang/Proofs/Command/Shown.lean
  ==================================
  **What is shown of diagnostics.**  On a terminal a diagnostic is its layout in blocks.  In a
  report it is an object with its code, its message and whatever else it has, and for every label
  the text of the line of the source on which it starts.  `ShownAs` and `Describes` say so, and
  `OnTerminal` and `Reports` say it for all diagnostics of a run.

  `Job.ShowsFailure` is all that a job leaves behind when a phase finds errors: the exit status, and
  the diagnostics in the one place or the other.
-/
import TarnLang.Command.Run
import TarnLang.Proofs.Diagnostic.Rows
import TarnLang.Proofs.Text.JsonText

namespace TarnLang

open Text (JsonValue JsonText)

/-! ### Reports -/

/-- What an object has under a key. -/
def Text.JsonValue.member? (key : String) : JsonValue → Option JsonValue
  | .object members => members.lookup key
  | _ => none

structure DescribesSpan (s : Span) (v : JsonValue) : Prop where
  start_line : v.member? "start_line" = some (.number s.start.line.toNat)
  start_col : v.member? "start_col" = some (.number s.start.column.toNat)
  end_line : v.member? "end_line" = some (.number s.stop.line.toNat)
  end_col : v.member? "end_col" = some (.number s.stop.column.toNat)

/-- A label, with the text of the line of the source on which it starts. -/
structure DescribesLabel (source : String) (l : Label) (v : JsonValue) : Prop where
  message : v.member? "message" = some (.string l.message)
  span : ∃ s, v.member? "span" = some s ∧ DescribesSpan l.span s
  source_line : v.member? "source_line" = some (.string (sourceLine source l.span.start.line))

/-- A diagnostic; what it does not have is left out. -/
structure Describes (source : String) (d : Diagnostic) (v : JsonValue) : Prop where
  code : v.member? "code" = some (.string d.code)
  category : v.member? "category" = (ErrorCode.ofText? d.code).map fun e => .string e.category.label
  message : v.member? "message" = some (.string d.message)
  primary : Option.Rel (DescribesLabel source) d.primary (v.member? "primary")
  related : Option.Rel (DescribesLabel source) d.related (v.member? "related")
  note : v.member? "note" = d.note.map .string
  help : v.member? "help" = d.help.map .string

/-- A report on the diagnostics that a phase made. -/
structure DescribesRun (source path phase : String) (success : Bool) (ds : List Diagnostic)
    (v : JsonValue) : Prop where
  version : v.member? "version" = some (.number 1)
  file : v.member? "file" = some (.string path)
  phase : v.member? "phase" = some (.string phase)
  success : v.member? "success" = some (.bool success)
  error_count : v.member? "error_count" = some (.number ds.length)
  diagnostics : ∃ items, v.member? "diagnostics" = some (.array items) ∧
    List.Forall₂ (Describes source) ds items

/-- A text is a report and a line feed, and nothing else. -/
def Reports (source path phase : String) (success : Bool) (ds : List Diagnostic) (text : String) :
    Prop :=
  ∃ v written, JsonText v written ∧ text = String.ofList written ++ "\n" ∧
    DescribesRun source path phase success ds v

variable {source : String}

theorem describesSpan_spanValue (s : Span) : DescribesSpan s (Report.spanValue s) :=
  ⟨rfl, rfl, rfl, rfl⟩

theorem describesLabel_labelValue (source : String) (l : Label) :
    DescribesLabel source l (Report.labelValue (.ofString source) l) := by
  refine ⟨rfl, ⟨_, rfl, describesSpan_spanValue l.span⟩, ?_⟩
  rw [← lineTextOrEmpty_ofString]
  rfl

theorem lookup_optionalMember {α : Type} (key key' : String) (write : α → JsonValue)
    (x : Option α) :
    (Report.optionalMember key' write x).lookup key =
      bif key == key' then x.map write else none := by
  cases x with
  | none => cases key == key' <;> rfl
  | some x =>
    have hone : (Report.optionalMember key' write (some x)).lookup key =
        List.lookup key [(key', write x)] := rfl
    rw [hone, List.lookup_cons]
    cases key == key' <;> rfl

theorem describes_diagnosticValue (source : String) (d : Diagnostic) :
    Describes source d (Report.diagnosticValue (.ofString source) d) := by
  have hlabel : ∀ x : Option Label, Option.Rel (DescribesLabel source) x
      (x.map (Report.labelValue (.ofString source))) := by
    intro x
    cases x with
    | none => exact .none
    | some l => exact .some (describesLabel_labelValue source l)
  constructor
  case primary =>
    simpa [JsonValue.member?, Report.diagnosticValue, List.lookup_cons, List.lookup_append,
      lookup_optionalMember] using hlabel d.primary
  case related =>
    simpa [JsonValue.member?, Report.diagnosticValue, List.lookup_cons, List.lookup_append,
      lookup_optionalMember] using hlabel d.related
  all_goals
    simp [JsonValue.member?, Report.diagnosticValue, List.lookup_cons, List.lookup_append,
      lookup_optionalMember, Function.comp_def]

/-- **A report on diagnostics describes them**, and calls a run without any a success. -/
theorem reports_write (source path phase : String) (ds : List Diagnostic) :
    Reports source path phase ds.isEmpty ds ((Report.mk source path phase ds).write ++ "\n") := by
  refine ⟨_, _, Text.jsonText_write 0 (Report.mk source path phase ds).value, ?_, ?_⟩
  · rw [String.ofList_toList]
    rfl
  · refine ⟨rfl, rfl, rfl, rfl, rfl, _, rfl, List.forall₂_map_right_iff.mpr ?_⟩
    exact List.forall₂_same.mpr fun d _ => describes_diagnosticValue source d

/-! ### Terminals -/

/-- A text shows a diagnostic.  Without colours it is the layout in blocks. -/
structure ShownAs (colors : Bool) (source path : String) (d : Diagnostic) (text : String) :
    Prop where
  text_eq : text = d.format ⟨colors, path⟩ (.ofString source)
  laidOut : colors = false → ∃ blocks, LaidOut source path d blocks text

/-- Diagnostics with an empty line behind each, and behind them the verdict on the phase that made
    them. -/
def OnTerminal (colors : Bool) (source path : String) (phase : Phase) (ds : List Diagnostic)
    (text : String) : Prop :=
  ∃ shown, List.Forall₂ (ShownAs colors source path) ds shown ∧
    text = String.join (shown.map (· ++ "\n")) ++ "\n"
      ++ Listing.bannerFail colors phase ds.length ++ "\n"

theorem shownAs_format (colors : Bool) (source path : String) (d : Diagnostic) :
    ShownAs colors source path d (d.format ⟨colors, path⟩ (.ofString source)) := by
  refine ⟨rfl, ?_⟩
  rintro rfl
  exact d.exists_laidOut source path

/-! ### Failures -/

namespace Job

/-- Lines that name what a phase has done, as they are written to the standard error. -/
def banners (colors : Bool) (texts : List String) : String :=
  String.join (texts.map fun text => Listing.banner colors text ++ "\n")

/-- What a job leaves behind when a phase finds errors, after some banners: the exit status is one,
    and the diagnostics are in a report on the standard output, which is the only one, or as text on
    the standard error. -/
structure ShowsFailure (job : Job) (texts : List String) (phase : Phase) (ds : List Diagnostic)
    (c : Completed) : Prop where
  exit : c.exit = 1
  json : job.options.json = true →
    Reports job.source job.path phase.label false ds c.stdout ∧
      c.stderr = banners job.colors texts
  terminal : job.options.json = false → c.stdout = "" ∧
    ∃ text, OnTerminal job.colors job.source job.path phase ds text ∧
      c.stderr = banners job.colors texts ++ text

variable {job : Job} {phase : Phase} {ds : List Diagnostic}

theorem onTerminal_formatted (job : Job) (phase : Phase) (ds : List Diagnostic) :
    OnTerminal job.colors job.source job.path phase ds (job.formatted ds ++ "\n"
      ++ Listing.bannerFail job.colors phase ds.length ++ "\n") := by
  refine ⟨ds.map fun d => d.format ⟨job.colors, job.path⟩ (.ofString job.source), ?_, ?_⟩
  · exact List.forall₂_map_right_iff.mpr (List.forall₂_same.mpr fun d _ => shownAs_format ..)
  · rw [List.map_map]
    rfl

/-- **A job that fails in a phase shows the diagnostics of the phase.** -/
theorem showsFailure_failed (hds : ds ≠ []) :
    ShowsFailure job [] phase ds (job.failed phase ds) := by
  have hsuccess : ds.isEmpty = false := by simpa using hds
  cases hjson : job.options.json with
  | true =>
    have hfailed : job.failed phase ds = .failure (job.report phase ds) "" := if_pos hjson
    rw [hfailed]
    refine ⟨rfl, fun _ => ⟨?_, rfl⟩, fun h => (nomatch hjson.symm.trans h)⟩
    rw [← hsuccess]
    exact reports_write ..
  | false =>
    have hfailed : job.failed phase ds = .failure "" (job.formatted ds ++ "\n"
        ++ Listing.bannerFail job.colors phase ds.length ++ "\n") := by
      rw [failed, hjson]
      rfl
    rw [hfailed]
    refine ⟨rfl, fun h => (nomatch hjson.symm.trans h), fun _ => ⟨rfl, ?_⟩⟩
    exact ⟨_, onTerminal_formatted job phase ds, (String.empty_append ..).symm⟩

end Job

end TarnLang
