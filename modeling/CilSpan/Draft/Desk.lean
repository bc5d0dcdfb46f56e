import CilSpan.Body.Edit

namespace CilSpan

/-- `waiting` is the label bound last, as long as nothing has been emitted for it; `unbound` are the
labels handed out and not bound yet. -/
structure Draft where
  body : Body
  waiting : Option Label
  unbound : List Label
deriving DecidableEq, Repr

namespace Draft

def empty : Draft := ⟨.empty, none, []⟩

def label (d : Draft) : Label × Draft :=
  let l := d.body.freshLabel
  (l, { d with body := { d.body with next := d.body.next + 1 }, unbound := l :: d.unbound })

def emit (d : Draft) (op : Op) : Label × Draft :=
  match d.waiting with
  | some l => (l, { d with body := d.body.append [⟨l, op⟩], waiting := none })
  | none =>
    let (l, body) := d.body.push op
    (l, { d with body })

def emitAll (d : Draft) (ops : List Op) : Draft := ops.foldl (fun d op ↦ (d.emit op).2) d

/-- An instruction has one label, so a label that is still waiting is given to a `nop` first. -/
def bind (d : Draft) (l : Label) : Draft :=
  let d := if d.waiting.isSome then (d.emit .nop).2 else d
  { d with waiting := some l, unbound := d.unbound.filter (· ≠ l) }

def addLocal (d : Draft) (type : TypeName) : Except Flaw UInt16 × Draft :=
  let (answer, body) := d.body.addLocal type
  (answer, { d with body })

def addRegion (d : Draft) (r : Region) : Draft := { d with body := d.body.addRegion r }

def setInitLocals (d : Draft) (value : Bool) : Draft :=
  { d with body := { d.body with initLocals := value } }

def leastLabel? : List Label → Option Label
  | [] => none
  | l :: ls =>
    match leastLabel? ls with
    | some m => some (if m.val < l.val then m else l)
    | none => some l

def build (d : Draft) : Except Flaw Body :=
  match d.waiting, leastLabel? d.unbound, d.body.flaw? with
  | some l, _, _ => .error (.unboundLabel l)
  | none, some l, _ => .error (.unboundLabel l)
  | none, none, some flaw => .error flaw
  | none, none, none => .ok d.body

end Draft

structure Desk where
  draft : Draft
  labels : List Label
deriving DecidableEq, Repr

namespace Desk

inductive Act
  | label
  | bind (number : Nat)
  | emit (op : Op)
  | emitAll (ops : List Op)
  | addLocal (type : TypeName)
  | addRegion (handler : Handler) (tryStart tryEnd handlerStart handlerEnd : Nat)
  | setInitLocals (value : Bool)
deriving DecidableEq, Repr

inductive Answer
  | done
  | label (l : Label)
  | slot (n : UInt16)
  | flawed (flaw : Flaw)
  | nothingLabelled
deriving DecidableEq, Repr

def empty : Desk := ⟨.empty, []⟩

def region? (s : Desk) (handler : Handler) (tryStart tryEnd handlerStart handlerEnd : Nat) :
    Option Region := do
  return ⟨handler, ← s.labels[tryStart]?, ← s.labels[tryEnd]?, ← s.labels[handlerStart]?,
    ← s.labels[handlerEnd]?⟩

def perform (s : Desk) : Act → Answer × Desk
  | .label =>
    let (l, draft) := s.draft.label
    (.label l, ⟨draft, s.labels ++ [l]⟩)
  | .bind number =>
    match s.labels[number]? with
    | some l => (.done, { s with draft := s.draft.bind l })
    | none => (.nothingLabelled, s)
  | .emit op =>
    let (l, draft) := s.draft.emit op
    (.label l, { s with draft })
  | .emitAll ops => (.done, { s with draft := s.draft.emitAll ops })
  | .addLocal type =>
    match s.draft.addLocal type with
    | (.ok n, draft) => (.slot n, { s with draft })
    | (.error flaw, draft) => (.flawed flaw, { s with draft })
  | .addRegion handler tryStart tryEnd handlerStart handlerEnd =>
    match s.region? handler tryStart tryEnd handlerStart handlerEnd with
    | some r => (.done, { s with draft := s.draft.addRegion r })
    | none => (.nothingLabelled, s)
  | .setInitLocals value => (.done, { s with draft := s.draft.setInitLocals value })

end Desk

end CilSpan
