import Stencil.Failure
import Stencil.Template.Basic

/-!
# Diagnostics

Reports on templates: what fails to parse, load or render is an error, an inlined template or text
that is not there is a warning, and the variables that a context has to provide are an information.
-/

namespace Stencil

/-- How much a diagnostic matters. -/
inductive Severity
  | info | warning | error
  deriving DecidableEq

namespace Severity

def name : Severity → String
  | info => "INFO"
  | warning => "WARN"
  | error => "ERROR"

/-- The place among the severities, the least severe first. -/
def rank : Severity → Nat
  | info => 0
  | warning => 1
  | error => 2

end Severity

/-- What a diagnostic is about. -/
inductive DiagnosticKind
  | source
  | render
  | load
  | missingInline (name : String) (raw : Bool) (references : Nat)
  | required (names : List String)

def DiagnosticKind.severity : DiagnosticKind → Severity
  | source | render | load => .error
  | missingInline .. => .warning
  | required _ => .info

/-- A remark on a template. -/
structure Diagnostic where
  /-- The name or the path of the template. -/
  template : String
  kind : DiagnosticKind
  message : String
  location : Option Text.Location := none
  /-- The source line with a marker. -/
  window : Option String := none

namespace Diagnostic

def severity (d : Diagnostic) : Severity := d.kind.severity

/-- A template or a file it needs could not be read. -/
def loadFailure (template message : String) : Diagnostic := { template, kind := .load, message }

/-- A failure, with its place in the source if it has one. -/
def ofFailure (template : String) (failure : Failure) (source : String) : Diagnostic :=
  let kind : DiagnosticKind := match failure with
    | .eval (.unresolvedInline name) => .missingInline name false 1
    | .eval _ => .render
    | _ => .source
  let window := failure.location?.bind fun location =>
    let text := Text.sourceWindow source location failure.markerWidth
    if text.isEmpty then none else some text
  { template, kind, message := failure.message, location := failure.location?, window }

/-- A diagnostic as it is shown. -/
def text (d : Diagnostic) : String :=
  let place := match d.location with
    | some location => s!":{location.line}:{location.column}"
    | none => ""
  let window := match d.window with
    | some window =>
      String.join ((Text.lines window.toList).map fun line => "\n  | " ++ String.ofList line)
    | none => ""
  "[" ++ d.severity.name ++ "] " ++ d.template ++ place ++ ": " ++ d.message ++ window

/-- An inlined template or text that is not there. -/
def ofMissing (template file : String) (raw : Bool) (references : Nat) : Diagnostic :=
  let message :=
    if raw then s!"#inline(\"{file}\", as: raw) 没有可拼接的文本（{references} 处引用）"
    else s!"#inline(\"{file}\") 没有可拼接的模板（{references} 处引用）"
  { template, kind := .missingInline file raw references, message }

end Diagnostic

/-- Diagnostics in order. -/
abbrev Report := List Diagnostic

namespace Report

/-- How many diagnostics have a severity. -/
def count (report : Report) (severity : Severity) : Nat := report.countP (·.severity == severity)

def hasErrors (report : Report) : Bool := 0 < report.count .error

/-- The diagnostics of at least a severity. -/
def atLeast (report : Report) (least : Severity) : Report :=
  report.filter fun d => least.rank ≤ d.severity.rank

/-- The names of what is not there to be inlined. -/
def missingInlines (report : Report) : List String :=
  report.filterMap fun d => match d.kind with
    | .missingInline name _ _ => some name
    | _ => none

/-- The findings on a parsed template. -/
def analyze (name : String) (t : Template) : Report :=
  let missing := t.awaiting.map fun entry =>
    Diagnostic.ofMissing name entry.1.1 entry.1.2 entry.2
  let required :=
    if t.required.isEmpty then []
    else [{ template := name, kind := .required t.required,
            message := "需要的变量: " ++ ", ".intercalate t.required }]
  missing ++ required

end Report

end Stencil
