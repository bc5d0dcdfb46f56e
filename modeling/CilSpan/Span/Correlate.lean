import CilSpan.Span.Refusal
import CilSpan.Decl

namespace CilSpan

structure Exits where
  funnel : Label
  completions : List Label
  suspensions : List Label
deriving DecidableEq, Repr

def Op.loadsState (marker : String) : Op → Bool
  | .ldfld field => Text.contains field.name marker
  | _ => false

namespace Body

def leaves (b : Body) : List (Instr × Nat) := b.code.zipIdx.filter fun (i, _) ↦ i.op.isLeave

def funnel? (b : Body) : Option Label := do
  let (_, position) ← b.leaves.getLast?
  return (← b.code[position + 1]?).label

/-- Whether a fault report stands among the `lookback` instructions before a position. -/
def faultNear (b : Body) (pattern : StepPattern) (position : Nat) : Bool :=
  ((b.code.take position).drop (position - pattern.lookback.toNat)).any fun i ↦
    i.op.callsNamed pattern.faultReport

def completes (b : Body) (pattern : StepPattern) (funnel : Label) (i : Instr) (position : Nat) :
    Bool :=
  i.op.target? = some funnel || b.faultNear pattern position

def exits (b : Body) (pattern : StepPattern) : Except Refusal Exits :=
  match b.funnel? with
  | none => .error .noFunnel
  | some funnel =>
    let (ending, parking) := b.leaves.partition fun (i, n) ↦ b.completes pattern funnel i n
    if ending.isEmpty then .error (.noCompletion funnel)
    else .ok ⟨funnel, ending.map (·.1.label), parking.map (·.1.label)⟩

/-- Where the span is entered: ahead of the `ldarg 0` that goes with the first load of the state, or
at the start if the state is never loaded. -/
def stepEntry (b : Body) (pattern : StepPattern) : Except Refusal Nat :=
  let position := b.code.findIdx fun i ↦ i.op.loadsState pattern.stateMarker
  match b.code[position]? with
  | none => .ok 0
  | some load =>
    match position with
    | 0 => .error (.oddStateLoad load.label)
    | before + 1 =>
      if (b.code[before]?).map Instr.op = some (.ldarg 0) then .ok before
      else .error (.oddStateLoad load.label)

end Body

def correlatedCall (id : Int32) (name : String) (hook : Callee) : List Op :=
  [.ldc id, .ldstr name, .call hook]

namespace Edit

def ofExcept {α : Type} : Except Refusal α → Edit α
  | .ok a => pure a
  | .error e => throw e

/-- Enters the span at the entry and exits it ahead of every completing exit. Whatever branches to
such an exit then runs the new code too. -/
def correlate (id : Int32) (name : String) (hooks : Hooks) (pattern : StepPattern) :
    Edit Exits := do
  enter hooks
  modify Body.lengthen
  let exits ← ofExcept ((← get).exits pattern)
  let entry ← ofExcept ((← get).stepEntry pattern)
  insert entry (correlatedCall id name hooks.asyncEnter)
  modify fun b ↦ exits.completions.foldl
    (fun b l ↦ (b.insertAhead l (correlatedCall id name hooks.asyncExit)).2) b
  finish
  return exits

end Edit

namespace Body

def correlate (b : Body) (id : Int32) (name : String) (hooks : Hooks) (pattern : StepPattern) :
    Except Refusal Exits × Body :=
  match Edit.correlate id name hooks pattern b with
  | .ok exits b => (.ok exits, b)
  | .error e b => (.error e, b)

end Body

end CilSpan
