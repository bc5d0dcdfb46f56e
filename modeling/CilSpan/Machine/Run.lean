import CilSpan.Body.Basic
import CilSpan.Machine.Step

namespace CilSpan

variable {σ : Type}

inductive Failure
  | invalid (flaw : Flaw)
  | broken (fault : Fault)
deriving DecidableEq, Repr

namespace Failure

def message : Failure → String
  | invalid flaw => "Invalid method body: " ++ flaw.message
  | broken fault => fault.message

end Failure

structure Invocation where
  args : List Value
  budget : Nat
deriving DecidableEq, Repr

def defaultBudget : Nat := 100000

structure Result (σ : Type) (α : Type) where
  answer : α
  heap : Heap
  world : σ

namespace State

def start (b : Body) (heap : Heap) (world : σ) : State σ where
  position := 0
  stack := []
  slots := b.locals.map .zero
  pending := []
  heap
  world
  path := []
  events := []

def trace (s : State σ) : Trace := ⟨s.path.reverse.map Moment.visit, s.events.reverse⟩

end State

namespace Program

def ofBody (b : Body) (hooks : Hooks) (args : List Value) (host : Host σ) :
    Except Fault (Program σ) := do
  return ⟨b, ← b.regions.mapM b.zone, hooks, args, host⟩

def run (p : Program σ) (budget : Nat) : Nat → State σ → Except Fault Outcome × State σ
  | 0, s => (.error (.budgetExhausted budget), s)
  | left + 1, s =>
    match p.step s with
    | .next s | .jumped s => p.run budget left s
    | .ended outcome s => (.ok outcome, s)
    | .broken fault s => (.error fault, s)

end Program

/-- Runs one invocation. Heap and host keep what was done to them, also if the machine breaks. -/
def Body.invoke (b : Body) (hooks : Hooks) (host : Host σ) (call : Invocation) (heap : Heap)
    (world : σ) : Result σ (Except Failure Execution) :=
  match b.flaw? with
  | some flaw => ⟨.error (.invalid flaw), heap, world⟩
  | none =>
    match Program.ofBody b hooks call.args host with
    | .error fault => ⟨.error (.broken fault), heap, world⟩
    | .ok p =>
      match p.run call.budget call.budget (.start b heap world) with
      | (.ok outcome, s) => ⟨.ok ⟨outcome, s.trace⟩, s.heap, s.world⟩
      | (.error fault, s) => ⟨.error (.broken fault), s.heap, s.world⟩

end CilSpan
