import CilSpan.Span.Refusal

namespace CilSpan

inductive Change
  | bracketed
  | correlated (id : Int32)
deriving DecidableEq, Repr

inductive Fate
  | instrumented (change : Change)
  | skipped (reason : String)
  | failed (text : String)
deriving DecidableEq, Repr

structure Entry where
  method : String
  fate : Fate
deriving DecidableEq, Repr

structure MethodFailure where
  method : String
  cause : Refusal
deriving DecidableEq, Repr

namespace MethodFailure

def summary (f : MethodFailure) : String :=
  let method := f.method
  s!"failed to instrument '{method}'"

def message (f : MethodFailure) : String := f.summary ++ ": " ++ f.cause.message

end MethodFailure

/-- Entries and failures stand in the order in which they were recorded; failures keep their causes
as long as the report is not written out. -/
structure Report where
  module : String
  entries : List Entry
  failures : List MethodFailure
deriving DecidableEq, Repr

namespace Fate

def isInstrumented : Fate → Bool
  | instrumented _ => true
  | _ => false

def isSkipped : Fate → Bool
  | skipped _ => true
  | _ => false

def isFailed : Fate → Bool
  | failed _ => true
  | _ => false

end Fate

namespace Report

def empty (module : String) : Report := ⟨module, [], []⟩

def record (r : Report) (method : String) (fate : Fate) : Report :=
  { r with entries := r.entries ++ [⟨method, fate⟩] }

def recordFailure (r : Report) (f : MethodFailure) : Report :=
  { r.record f.method (.failed f.message) with failures := r.failures ++ [f] }

def fate? (r : Report) (method : String) : Option Fate :=
  (r.entries.find? fun e ↦ e.method = method).map Entry.fate

def instrumentedCount (r : Report) : Nat := r.entries.countP fun e ↦ e.fate.isInstrumented

def skippedCount (r : Report) : Nat := r.entries.countP fun e ↦ e.fate.isSkipped

def failedCount (r : Report) : Nat := r.entries.countP fun e ↦ e.fate.isFailed

def hasFailures (r : Report) : Bool := r.failedCount > 0

def verdict (r : Report) : Except String Unit :=
  if r.hasFailures then
    let failed := (r.entries.filter fun e ↦ e.fate.isFailed).map Entry.method
    let count := Text.ofNat r.failedCount
    let total := Text.ofNat r.entries.length
    let names := String.intercalate ", " failed
    .error s!"{count} of {total} methods failed to instrument: {names}"
  else .ok ()

end Report

end CilSpan
