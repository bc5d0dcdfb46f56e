import CilSpan.Machine.World

namespace CilSpan

structure Action where
  writes : List (UInt32 × String × Value)
  allocates : Bool
  raises : Option Value
  returns : Option Value
deriving DecidableEq, Repr

namespace Action

def perform (a : Action) (heap : Heap) : Reply × Heap :=
  let heap := a.writes.foldl (fun h (object, name, value) ↦ h.write object name value) heap
  if a.allocates then
    let (number, heap) := heap.alloc
    (.back (some (.object number)), heap)
  else
    match a.raises with
    | some exception => (.raise exception, heap)
    | none => (.back a.returns, heap)

end Action

/-- Applies to calls of a routine by name and, if `first` is given, by first argument. A rule
without actions never applies. -/
structure Rule where
  name : String
  first : Option Value
  actions : List Action
deriving DecidableEq, Repr

namespace Rule

def applies (r : Rule) (callee : Callee) (args : List Value) : Bool :=
  callee.name = r.name && !r.actions.isEmpty && (r.first.isNone || args.head? = r.first)

def action? (r : Rule) (used : Nat) : Option Action := r.actions[min used (r.actions.length - 1)]?

end Rule

/-- A call that no rule applies to returns no value if the script is `silent`, else a zero value. -/
structure Script where
  rules : List Rule
  silent : Bool
deriving DecidableEq, Repr

structure ScriptLog where
  used : List Nat
  calls : List (Callee × List Value)
deriving DecidableEq, Repr

namespace Script

def start (s : Script) : ScriptLog := ⟨s.rules.map fun _ ↦ 0, []⟩

def host (s : Script) : Host ScriptLog where
  call callee args heap log :=
    let log := { log with calls := (callee, args) :: log.calls }
    let number := s.rules.findIdx fun r ↦ r.applies callee args
    match s.rules[number]? with
    | none => (if s.silent then .back none else callee.zeroReply, heap, log)
    | some rule =>
      let used := (log.used[number]?).getD 0
      let log := { log with used := log.used.set number (used + 1) }
      match rule.action? used with
      | some action =>
        let (reply, heap) := action.perform heap
        (reply, heap, log)
      | none => (.back none, heap, log)

end Script

end CilSpan
