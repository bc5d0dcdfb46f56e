import CilSpan.Ref
import CilSpan.Instr
import CilSpan.Machine.World

namespace CilSpan

inductive Fault
  | stackUnderflow (label : Label)
  | typeMismatch (label : Label) (expected found : String)
  | missingArgument (index : UInt16)
  | fellOffEnd
  | strayEndfinally (label : Label)
  | budgetExhausted (budget : Nat)
  | badHookArguments (hook : Hook)
  | lostTarget (target : Label)
  | lostSlot (slot : UInt16)
deriving DecidableEq, Repr

namespace Fault

def message : Fault → String
  | stackUnderflow label => s!"evaluation stack underflow at {label}"
  | typeMismatch label expected found => s!"{label}: expected {expected}, found {found}"
  | missingArgument index =>
    let number := Text.ofNat index.toNat
    s!"argument {number} was not supplied"
  | fellOffEnd => "execution ran past the last instruction"
  | strayEndfinally label => s!"endfinally at {label} outside a finally handler"
  | budgetExhausted budget =>
    let number := Text.ofNat budget
    s!"instruction budget of {number} exhausted"
  | badHookArguments hook => s!"tracer hook {hook.name} called with malformed arguments"
  | lostTarget target => s!"no instruction is labelled {target}"
  | lostSlot slot =>
    let number := Text.ofNat slot.toNat
    s!"no local has slot {number}"

end Fault

inductive Event
  | enter (name : String)
  | exit
  | asyncEnter (id : Int32) (name : String)
  | asyncExit (id : Int32) (name : String)
  | call (routine : String)
deriving DecidableEq, Repr

namespace Event

def hook? : Event → Option Hook
  | enter _ => some .enter
  | exit => some .exit
  | asyncEnter _ _ => some .asyncEnter
  | asyncExit _ _ => some .asyncExit
  | call _ => none

def isCall : Event → Bool
  | call _ => true
  | _ => false

end Event

/-- A body returns, with or without a value, or an exception leaves it. -/
inductive Outcome
  | returned (value : Option Value)
  | threw (exception : Value)
deriving DecidableEq, Repr

structure Visit where
  position : UInt64
  label : Label
  depth : UInt64
deriving DecidableEq, Repr

/-- Both lists are in the order of execution. -/
structure Trace where
  visits : List Visit
  events : List Event
deriving DecidableEq, Repr

namespace Trace

def hookEvents (t : Trace) : List Event := t.events.filter fun e ↦ e.hook?.isSome

def count (t : Trace) (hook : Hook) : Nat := t.events.countP fun e ↦ e.hook? = some hook

end Trace

structure Execution where
  outcome : Outcome
  trace : Trace
deriving DecidableEq, Repr

end CilSpan
