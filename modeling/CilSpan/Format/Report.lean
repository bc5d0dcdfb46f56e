import CilSpan.Batch.Report
import CilSpan.Json.Parser
import CilSpan.Json.Printer
import CilSpan.Json.Record

namespace CilSpan

open Json

namespace Change

def toJson : Change → Json
  | bracketed => .str "sync"
  | correlated id => .obj [("async", .obj [("id", ofInt32 id)])]

def ofJson? (j : Json) : Option Change := do
  match ← j.variant? with
  | ("sync", operand) => if isBare operand then some bracketed else none
  | ("async", operand) =>
    match ← record? ["id"] (← operand) with
    | [some id] => return correlated (← id.int32?)
    | _ => none
  | _ => none

end Change

namespace Fate

def toJson : Fate → Json
  | instrumented change => .obj [("status", .str "instrumented"), ("kind", change.toJson)]
  | skipped reason => .obj [("status", .str "skipped"), ("reason", .str reason)]
  | failed text => .obj [("status", .str "failed"), ("error", .str text)]

def detail? (field : String) : Json → Option Json
  | .arr [_, detail] => some detail
  | .obj members => do
    match ← record? [field] (.obj members) with
    | [detail] => detail
    | _ => none
  | _ => none

def status? : Json → Option String
  | .arr (status :: _) => status.str?
  | .obj members => do
    match ← record? ["status"] (.obj members) with
    | [some status] => status.str?
    | _ => none
  | _ => none

def change? : Json → Option Change
  | .obj [("sync", .obj [])] => some .bracketed
  | j => Change.ofJson? j

/-- A fate is taken in as a whole before its status is known, so nothing in it may be unreadable,
not even in members that do not matter. -/
def ofJson? (j : Json) : Option Fate := do
  guard j.readable
  match ← status? j with
  | "instrumented" => return instrumented (← change? (← detail? "kind" j))
  | "skipped" => return skipped (← (← detail? "reason" j).str?)
  | "failed" => return failed (← (← detail? "error" j).str?)
  | _ => none

end Fate

namespace Entry

def toJson (e : Entry) : Json := .obj [("method", .str e.method), ("outcome", e.fate.toJson)]

def ofJson? (j : Json) : Option Entry := do
  match ← record? ["method", "outcome"] j with
  | [some method, some fate] => return ⟨← method.str?, ← Fate.ofJson? fate⟩
  | _ => none

end Entry

namespace Report

def toJson (r : Report) : Json :=
  .obj [("module", .str r.module), ("methods", ofList Entry.toJson r.entries)]

def ofJson? (j : Json) : Option Report := do
  match ← record? ["module", "methods"] j with
  | [some module, some entries] => return ⟨← module.str?, ← list? Entry.ofJson? entries, []⟩
  | _ => none

def write (r : Report) : String := r.toJson.pretty

def read? (text : String) : Option Report := (parse? text).bind ofJson?

end Report

end CilSpan
