import Blockwork.Draft.Decode
import Blockwork.Library

/-!
# Reports

The answers of the compiler as documents for a page that shows them: the result of
compiling the text of a bundle, and the first defect of the text of a block draft.
-/

namespace Blockwork

open Json (ofString ofList)

/-- A diagnostic by its texts. The member that holds the code has a name of its own in each
kind of answer, and the cycle is left out if there is none. -/
def Diagnostic.toJson (codeMember : String) (d : Diagnostic) : Json :=
  .record ([
    (codeMember, ofString d.kind.code), ("category", ofString d.category.text),
    ("phase", ofString d.phase.text), ("message", ofString d.message),
    ("location", ofString d.location.text)] ++
    if d.cycle.isEmpty then [] else [("cycle", ofList ofString d.cycle)])

/-- A fault. A breach has the code `PANIC` and nothing but its message. -/
def Fault.toJson (codeMember : String) : Fault → Json
  | .rejected d => d.toJson codeMember
  | .breach b =>
    .record [(codeMember, ofString "PANIC"), ("message", ofString b.message)]

namespace Report

/-- The report of a compiled bundle. -/
def ofResult : Except (List Fault) (List BlockSummary) → Json
  | .ok blocks =>
    .record [("status", ofString "success"), ("blocks", ofList BlockSummary.toJson blocks)]
  | .error faults =>
    .record [("status", ofString "errors"), ("errors", ofList (Fault.toJson "code") faults)]

/-- The result of compiling a bundle that was read, or the report that it was not. -/
def compile (b : Except Diagnostic Bundle) : Except (List Fault) (List BlockSummary) :=
  match b with
  | .error d => .error [.rejected d]
  | .ok b => Library.compileBundle b

/-- The report of compiling the text of a bundle. -/
def compileBundle (text : String) : Json :=
  ofResult (compile (Bundle.parse text))

/-- The first defect of a block draft that was read, or the report that it was not. -/
def defects (b : Except Diagnostic BlockDraft) : List Diagnostic :=
  match b.bind Assembly.ofDraft with
  | .ok _ => []
  | .error d => [d]

/-- The report of checking the text of a block draft. -/
def checkDraft (text : String) : Json :=
  ofList (Diagnostic.toJson "code") (defects (BlockDraft.parse text))

end Report

end Blockwork
