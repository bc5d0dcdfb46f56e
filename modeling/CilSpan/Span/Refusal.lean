import CilSpan.Body.Edit
import CilSpan.Body.Layout
import CilSpan.Ref

namespace CilSpan

inductive Refusal
  | noBody
  | emptyBody
  | noBaseCall
  | noFunnel
  | noCompletion (funnel : Label)
  | oddStateLoad (label : Label)
  | noStateMachine
  | stepCount (name : String) (found : Nat)
  | alreadyHooked (hook : String)
  | invalid (flaw : Flaw)
  | outOfRange (e : OutOfRange)
deriving DecidableEq, Repr

namespace Refusal

def summary : Refusal → String
  | noBody => "method has no body"
  | emptyBody => "method body has no instructions"
  | noBaseCall => "no call to a base type constructor found in instance constructor"
  | noFunnel => "no leave instruction found; cannot locate the completion funnel"
  | noCompletion funnel => s!"no exit reaches the completion funnel at {funnel}"
  | oddStateLoad label => s!"state field load at {label} is not preceded by ldarg.0"
  | noStateMachine => "method is not bound to a state machine"
  | stepCount name found =>
    let number := Text.ofNat found
    s!"expected exactly one step method `{name}`, found {number}"
  | alreadyHooked hook => s!"body already calls tracer hook `{hook}`"
  | invalid _ => "instrumented body is invalid"
  | outOfRange e => e.message

def message : Refusal → String
  | invalid flaw => (invalid flaw).summary ++ ": " ++ flaw.message
  | r => r.summary

end Refusal

abbrev Edit := EStateM Refusal Body

namespace Edit

def insert (index : Nat) (ops : List Op) : Edit Unit := fun b ↦
  match b.insert index ops with
  | (.ok _, b) => .ok () b
  | (.error e, b) => .error (.outOfRange e) b

def insertBeforeLast (count : Nat) (ops : List Op) : Edit Unit := fun b ↦
  if count ≤ b.size then Edit.insert (b.size - count) ops b
  else .error (.outOfRange ⟨count, b.size⟩) b

def create (op : Op) : Edit Instr := fun b ↦
  let (i, b) := b.create op
  .ok i b

def addLocal (type : TypeName) : Edit UInt16 := fun b ↦
  match b.addLocal type with
  | (.ok slot, b) => .ok slot b
  | (.error flaw, b) => .error (.invalid flaw) b

def labelAt (index : Nat) : Edit Label := fun b ↦
  match b.code[index]? with
  | some i => .ok i.label b
  | none => .error (.outOfRange ⟨index, b.size⟩) b

end Edit

namespace Body

def hooked? (b : Body) (hooks : Hooks) : Option Callee := hooks.all.find? b.calls

end Body

namespace Edit

def enter (hooks : Hooks) : Edit Unit := fun b ↦
  if b.code.isEmpty then .error .emptyBody b
  else
    match b.hooked? hooks with
    | some hook => .error (.alreadyHooked hook.name) b
    | none => .ok () b

def finish : Edit Unit := fun b ↦
  let b := { b with initLocals := true }.shorten
  match b.flaw? with
  | some flaw => .error (.invalid flaw) b
  | none => .ok () b

end Edit

end CilSpan
