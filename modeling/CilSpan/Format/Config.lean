import CilSpan.Batch.Selection
import CilSpan.Json.Parser
import CilSpan.Json.Record

namespace CilSpan

open Json

def field? {α : Type} (standard : α) (read : Json → Option α) : Option Json → Option α
  | none => some standard
  | some j => read j

namespace StepPattern

def toJson (s : StepPattern) : Json :=
  .obj [("state_field_marker", .str s.stateMarker), ("fault_report_method", .str s.faultReport),
    ("fault_lookback", ofUInt64 s.lookback), ("step_method", .str s.stepMethod),
    ("async_attribute", .str s.asyncMark)]

def fields : List String :=
  ["state_field_marker", "fault_report_method", "fault_lookback", "step_method", "async_attribute"]

def ofJson? (j : Json) : Option StepPattern := do
  match ← recordPrefix? fields j with
  | [stateMarker, faultReport, lookback, stepMethod, asyncMark] =>
    return ⟨← field? standard.stateMarker str? stateMarker,
      ← field? standard.faultReport str? faultReport, ← field? standard.lookback uint64? lookback,
      ← field? standard.stepMethod str? stepMethod, ← field? standard.asyncMark str? asyncMark⟩
  | _ => none

end StepPattern

namespace Config

def toJson (c : Config) : Json :=
  .obj [("namespaces", ofList .str c.namespaces), ("types", ofList .str c.types),
    ("methods", ofList .str c.methods), ("fail_fast", .bool c.failFast), ("step", c.step.toJson)]

def fields : List String := ["namespaces", "types", "methods", "fail_fast", "step"]

def ofJson? (j : Json) : Option Config := do
  match ← recordPrefix? fields j with
  | [namespaces, types, methods, failFast, step] =>
    return ⟨← field? [] (list? str?) namespaces, ← field? [] (list? str?) types,
      ← field? [] (list? str?) methods, ← field? false bool? failFast,
      ← field? .standard StepPattern.ofJson? step⟩
  | _ => none

def parseError : String := "Failed to parse implanter configuration"

def fileError (path : String) : String := "Failed to read configuration from " ++ path

def parse (text : String) : Except String Config :=
  match (Json.parse? text).bind ofJson? with
  | some c => .ok c
  | none => .error parseError

def load (path : String) (text : Option String) : Except String Config :=
  match text with
  | some text => parse text
  | none => .error (fileError path)

end Config

end CilSpan
