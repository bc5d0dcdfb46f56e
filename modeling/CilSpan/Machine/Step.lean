import CilSpan.Body.Basic
import CilSpan.Machine.Trace
import CilSpan.Machine.World

namespace CilSpan

structure Extent where
  start : Nat
  stop : Nat
deriving DecidableEq, Repr

namespace Extent

def covers (e : Extent) (position : Nat) : Bool := e.start ≤ position ∧ position < e.stop

end Extent

structure Zone where
  cleanup : Bool
  guarded : Extent
  handler : Extent
deriving DecidableEq, Repr

namespace Body

def locate (b : Body) (l : Label) : Except Fault Nat :=
  match b.position? l with
  | some position => .ok position
  | none => .error (.lostTarget l)

def zone (b : Body) (r : Region) : Except Fault Zone := do
  let tryStart ← b.locate r.tryStart
  let tryEnd ← b.locate r.tryEnd
  let handlerStart ← b.locate r.handlerStart
  let handlerEnd ← b.locate r.handlerEnd
  return ⟨r.handler = .cleanup, ⟨tryStart, tryEnd⟩, ⟨handlerStart, handlerEnd⟩⟩

end Body

structure Program (σ : Type) where
  body : Body
  zones : List Zone
  hooks : Hooks
  args : List Value
  host : Host σ

/-- What happens when the current cleanup handler ends: a `leave` goes on to the handlers left and
then to its target, or an exception goes on looking for a handler. -/
inductive Pending
  | leave (target : Nat) (handlers : List Nat)
  | unwind (exception : Value) (origin : Nat) (nextZone : Nat)
deriving DecidableEq, Repr

structure Moment where
  position : Nat
  label : Label
  stack : List Value
deriving DecidableEq, Repr

namespace Moment

def visit (m : Moment) : Visit := ⟨m.position.toUInt64, m.label, m.stack.length.toUInt64⟩

end Moment

/-- The stack has its top first; `path` and `events` have the newest first. -/
structure State (σ : Type) where
  position : Nat
  stack : List Value
  slots : List Value
  pending : List Pending
  heap : Heap
  world : σ
  path : List Moment
  events : List Event

/-- Control goes on with the instruction behind, or jumps to some instruction, be it that same one;
or the invocation is over. -/
inductive Turn (σ : Type)
  | next (s : State σ)
  | jumped (s : State σ)
  | ended (outcome : Outcome) (s : State σ)
  | broken (fault : Fault) (s : State σ)

variable {σ : Type}

namespace State

def jump (s : State σ) (position : Nat) : State σ := { s with position }

def advance (s : State σ) : State σ := s.jump (s.position + 1)

def push (s : State σ) (v : Value) : State σ := { s with stack := v :: s.stack }

def record (s : State σ) (e : Event) : State σ := { s with events := e :: s.events }

def next (s : State σ) (stack : List Value) : Turn σ := .next { s with stack }.advance

end State

def guardian? (zones : List Zone) (position first : Nat) : Option (Zone × Nat) :=
  (zones.zipIdx.drop first).find? fun z ↦ z.1.guarded.covers position

/-- The cleanup handlers that a jump runs: those of the zones that it leaves. -/
def handlersBetween (zones : List Zone) (source target : Nat) : List Nat :=
  (zones.filter fun z ↦
    z.cleanup && z.guarded.covers source && !z.guarded.covers target).map fun z ↦ z.handler.start

def popArgs? (stack : List Value) (count : Nat) : Option (List Value × List Value) :=
  if count ≤ stack.length then some ((stack.take count).reverse, stack.drop count) else none

def hookEvent? : Hook → List Value → Option Event
  | .enter, [.str name] => some (.enter name)
  | .exit, [] => some .exit
  | .asyncEnter, [.int id, .str name] => some (.asyncEnter id name)
  | .asyncExit, [.int id, .str name] => some (.asyncExit id name)
  | _, _ => none

def callEvent (callee : Callee) : Event := .call s!"{callee.owner}::{callee.name}"

def nullReference : Value := .str "System.NullReferenceException"

namespace State

def depart (s : State σ) (target : Nat) (handlers : List Nat) : Turn σ :=
  match handlers with
  | [] => .jumped (s.jump target)
  | h :: handlers =>
    .jumped { s with position := h, pending := .leave target handlers :: s.pending }

def arith (s : State σ) (op : Arith) (label : Label) : Turn σ :=
  match s.stack with
  | [] => .broken (.stackUnderflow label) s
  | .int b :: .int a :: stack => s.next (.int (op.apply a b) :: stack)
  | [.int _] => .broken (.stackUnderflow label) s
  | .int _ :: v :: _ => .broken (.typeMismatch label "int32" v.text) s
  | v :: _ => .broken (.typeMismatch label "int32" v.text) s

end State

namespace Program

variable (p : Program σ)

/-- Looks for a handler of an exception from `origin`, beginning with zone number `first`. A rescue
handler takes every exception. -/
def raise (exception : Value) (origin first : Nat) (s : State σ) : Turn σ :=
  match guardian? p.zones origin first with
  | none => .ended (.threw exception) s
  | some (zone, number) =>
    if zone.cleanup then
      .jumped { s with
        position := zone.handler.start
        stack := []
        pending := .unwind exception origin (number + 1) :: s.pending }
    else .jumped { s with position := zone.handler.start, stack := [exception] }

def jumpTo (target : Label) (s : State σ) : Turn σ :=
  match p.body.position? target with
  | some position => .jumped (s.jump position)
  | none => .broken (.lostTarget target) s

def branch (jump : Jump) (target : Label) (label : Label) (s : State σ) : Turn σ :=
  match jump, s.stack with
  | .always, _ => p.jumpTo target s
  | .leave, _ =>
    match p.body.position? target with
    | some position =>
      { s with stack := [] }.depart position (handlersBetween p.zones s.position position)
    | none => .broken (.lostTarget target) s
  | .ifTrue, v :: stack => if v.isTrue then p.jumpTo target { s with stack } else s.next stack
  | .ifFalse, v :: stack => if v.isTrue then s.next stack else p.jumpTo target { s with stack }
  | _, [] => .broken (.stackUnderflow label) s

def endfinally (label : Label) (s : State σ) : Turn σ :=
  match s.pending with
  | [] => .broken (.strayEndfinally label) s
  | .leave target handlers :: pending => { s with pending }.depart target handlers
  | .unwind exception origin nextZone :: pending =>
    p.raise exception origin nextZone { s with pending }

/-- A call of the tracer is recorded and does nothing else; any other call is the host's. -/
def invoke (callee : Callee) (label : Label) (s : State σ) : Turn σ :=
  match popArgs? s.stack callee.arity with
  | none => .broken (.stackUnderflow label) s
  | some (args, stack) =>
    match p.hooks.hook? callee with
    | some hook =>
      match hookEvent? hook args with
      | some event => (s.record event).next stack
      | none => .broken (.badHookArguments hook) s
    | none =>
      let s := { s with stack }.record (callEvent callee)
      match p.host.call callee args s.heap s.world with
      | (.back value, heap, world) =>
        let s := { s with heap, world }
        if callee.returns then s.next (value.getD .null :: stack) else s.next stack
      | (.raise exception, heap, world) => p.raise exception s.position 0 { s with heap, world }

def construct (ctor : Callee) (label : Label) (s : State σ) : Turn σ :=
  match popArgs? s.stack ctor.params.length with
  | none => .broken (.stackUnderflow label) s
  | some (args, stack) =>
    let (number, heap) := s.heap.alloc
    let s := { s with stack, heap }.record (callEvent ctor)
    match p.host.call ctor (.object number :: args) s.heap s.world with
    | (.back _, heap, world) => { s with heap, world }.next (.object number :: stack)
    | (.raise exception, heap, world) => p.raise exception s.position 0 { s with heap, world }

def load (field : FieldName) (label : Label) (s : State σ) : Turn σ :=
  match s.stack with
  | [] => .broken (.stackUnderflow label) s
  | .object number :: stack => s.next (s.heap.get number field :: stack)
  | .null :: stack => p.raise nullReference s.position 0 { s with stack }
  | v :: _ => .broken (.typeMismatch label "object reference" v.text) s

def store (field : FieldName) (label : Label) (s : State σ) : Turn σ :=
  match s.stack with
  | value :: .object number :: stack =>
    { s with heap := s.heap.set number field value }.next stack
  | _ :: .null :: stack => p.raise nullReference s.position 0 { s with stack }
  | _ :: v :: _ => .broken (.typeMismatch label "object reference" v.text) s
  | _ => .broken (.stackUnderflow label) s

def exec (i : Instr) (s : State σ) : Turn σ :=
  match i.op, s.stack with
  | .nop, stack => s.next stack
  | .ldnull, stack => s.next (.null :: stack)
  | .ldc n, stack => s.next (.int n :: stack)
  | .ldstr text, stack => s.next (.str text :: stack)
  | .ldarg index, stack =>
    match p.args[index.toNat]? with
    | some v => s.next (v :: stack)
    | none => .broken (.missingArgument index) s
  | .ldloc slot, stack =>
    match s.slots[slot.toNat]? with
    | some v => s.next (v :: stack)
    | none => .broken (.lostSlot slot) s
  | .stloc slot, v :: stack =>
    if slot.toNat < s.slots.length then
      { s with slots := s.slots.set slot.toNat v }.next stack
    else .broken (.lostSlot slot) s
  | .ret, stack => .ended (.returned stack.head?) { s with stack := stack.tail }
  | .throw, v :: stack => p.raise v s.position 0 { s with stack }
  | .pop, _ :: stack => s.next stack
  | .dup, v :: stack => s.next (v :: v :: stack)
  | .ceq, b :: a :: stack => s.next (.ofBool (a = b) :: stack)
  | .arith op, _ => s.arith op i.label
  | .ldfld field, _ => p.load field i.label s
  | .stfld field, _ => p.store field i.label s
  | .call callee, _ | .callvirt callee, _ => p.invoke callee i.label s
  | .newobj ctor, _ => p.construct ctor i.label s
  | .branch jump _ target, _ => p.branch jump target i.label s
  | .endfinally, _ => p.endfinally i.label s
  | _, _ => .broken (.stackUnderflow i.label) s

def step (s : State σ) : Turn σ :=
  match p.body.code[s.position]? with
  | none => .broken .fellOffEnd s
  | some i => p.exec i { s with path := ⟨s.position, i.label, s.stack⟩ :: s.path }

end Program

end CilSpan
