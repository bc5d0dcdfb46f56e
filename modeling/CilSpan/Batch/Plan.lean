import CilSpan.Batch.Report
import CilSpan.Batch.Selection
import CilSpan.Span.Bracket
import CilSpan.Span.Correlate

namespace CilSpan

inductive Obstacle
  | missingHook (tracer hook : String)
  | stepCount (method name : String) (found : Nat)
deriving DecidableEq, Repr

namespace Obstacle

def message : Obstacle → String
  | missingHook tracer hook => s!"tracer type {tracer} has no static {hook}"
  | stepCount method name found =>
    let number := Text.ofNat found
    s!"async method '{method}' has {number} step methods named `{name}`, expected exactly one"

end Obstacle

namespace MethodDecl

def isHook (m : MethodDecl) (hook : Hook) : Bool :=
  m.name = hook.name && m.isStatic && m.result.isVoid && m.params = hook.params

end MethodDecl

namespace TypeDecl

def findHook (t : TypeDecl) (hook : Hook) : Except Obstacle Callee :=
  match t.methods.find? fun m ↦ m.isHook hook with
  | some m => .ok (.static t.type m.name m.params m.result)
  | none => .error (.missingHook t.type.full hook.signature)

def hooks (t : TypeDecl) : Except Obstacle Hooks := do
  return ⟨← t.findHook .enter, ← t.findHook .exit, ← t.findHook .asyncEnter,
    ← t.findHook .asyncExit⟩

end TypeDecl

inductive MethodShape
  | plain
  | async
  | generator
deriving DecidableEq, Repr

inductive Handling
  | instrumented (change : Change)
  | skipped (reason : String)
deriving DecidableEq, Repr

def Handling.fate : Handling → Fate
  | instrumented change => .instrumented change
  | skipped reason => .skipped reason

def generatorReason : String := "methods that yield are not supported"

namespace StateMachine

def stepIndex (m : StateMachine MethodDecl) (stepMethod : String) : Except Refusal Nat :=
  match m.candidates stepMethod with
  | [only] => .ok only
  | others => .error (.stepCount stepMethod others.length)

end StateMachine

def drawId (next : Int32) : Int32 × Int32 := (next, next + 1)

structure Plan where
  hooks : Hooks
  config : Config
deriving DecidableEq, Repr

/-- What comes out of treating something: an answer, the thing itself as it is now, and the
correlation number to give out next. -/
structure Treated (α : Type) (β : Type) where
  answer : α
  thing : β
  next : Int32

namespace Plan

def ofTracer (tracer : TypeDecl) (config : Config) : Except Obstacle Plan := do
  return ⟨← tracer.hooks, config⟩

/-- A generator stays one even if it is marked asynchronous. -/
def shape (p : Plan) (owner : Owner) (m : MethodDecl) : MethodShape :=
  if m.isGenerator owner then .generator
  else if m.isAsync p.config.step.asyncMark then .async
  else .plain

def bracket (p : Plan) (owner : Owner) (m : MethodDecl) : Except Refusal MethodDecl := do
  let base ←
    if m.isConstructor then
      match owner.base with
      | some base => pure (some base)
      | none => throw .noBaseCall
    else pure none
  match m.body with
  | none => throw .noBody
  | some body =>
    match body.bracket base m.result (m.fullName owner) p.hooks with
    | (.ok (), body) => return { m with body := some body }
    | (.error e, _) => throw e

/-- Puts a span over the steps of an asynchronous method. The number is used up as soon as there is
a step method to work on. -/
def correlate (p : Plan) (owner : Owner) (m : MethodDecl) (next : Int32) :
    Treated (Except Refusal Change) MethodDecl :=
  match m.machine with
  | none => ⟨.error .noStateMachine, m, next⟩
  | some machine =>
    match machine.stepIndex p.config.step.stepMethod with
    | .error e => ⟨.error e, m, next⟩
    | .ok index =>
      match machine.methods[index]? with
      | none => ⟨.error .noBody, m, next⟩
      | some step =>
        match step.body with
        | none => ⟨.error .noBody, m, next⟩
        | some body =>
          let (id, next) := drawId next
          match body.correlate id (m.fullName owner) p.hooks p.config.step with
          | (.error e, _) => ⟨.error e, m, next⟩
          | (.ok _, body) =>
            let step := { step with body := some body }
            let machine := { machine with methods := machine.methods.set index step }
            ⟨.ok (.correlated id), { m with machine := some machine }, next⟩

def treat (p : Plan) (owner : Owner) (m : MethodDecl) (next : Int32) :
    Treated (Except MethodFailure Handling) MethodDecl :=
  match p.shape owner m with
  | .generator => ⟨.ok (.skipped generatorReason), m, next⟩
  | .plain =>
    match p.bracket owner m with
    | .ok m => ⟨.ok (.instrumented .bracketed), m, next⟩
    | .error cause => ⟨.error ⟨m.fullName owner, cause⟩, m, next⟩
  | .async =>
    let done := p.correlate owner m next
    match done.answer with
    | .ok change => ⟨.ok (.instrumented change), done.thing, done.next⟩
    | .error cause => ⟨.error ⟨m.fullName owner, cause⟩, done.thing, done.next⟩

def obstacle? (p : Plan) (owner : Owner) (m : MethodDecl) : Option Obstacle :=
  match p.shape owner m with
  | .async =>
    let name := p.config.step.stepMethod
    let found :=
      match m.machine with
      | some machine => (machine.candidates name).length
      | none => 0
    if found = 1 then none else some (.stepCount (m.fullName owner) name found)
  | _ => none

def precheck (p : Plan) (module : ModuleDecl) (slots : List Slot) : Except Obstacle Unit :=
  match slots.findSome? fun slot ↦
      (module.method? slot).bind fun (owner, m) ↦ p.obstacle? owner m with
  | some obstacle => .error obstacle
  | none => .ok ()

/-- Treats the methods in the places given, one after the other. -/
def treatAll (p : Plan) (report : Report) (module : ModuleDecl) (next : Int32) :
    List Slot → Treated Report ModuleDecl
  | [] => ⟨report, module, next⟩
  | slot :: slots =>
    match module.method? slot with
    | none => p.treatAll report module next slots
    | some (owner, m) =>
      let done := p.treat owner m next
      let module := module.setMethod slot done.thing
      match done.answer with
      | .ok handling =>
        p.treatAll (report.record (m.fullName owner) handling.fate) module done.next slots
      | .error failure =>
        let report := report.recordFailure failure
        if p.config.failFast then ⟨report, module, done.next⟩
        else p.treatAll report module done.next slots

/-- Instruments the selected methods of a module. Nothing is touched if there is an obstacle. -/
def run (p : Plan) (module : ModuleDecl) (next : Int32) :
    Treated (Except Obstacle Report) ModuleDecl :=
  let slots := p.config.select module
  match p.precheck module slots with
  | .error obstacle => ⟨.error obstacle, module, next⟩
  | .ok () =>
    let done := p.treatAll (.empty module.name) module next slots
    ⟨.ok done.answer, done.thing, done.next⟩

end Plan

structure Abort where
  context : String
  obstacle : Obstacle
deriving DecidableEq, Repr

namespace Abort

def message (a : Abort) : String := a.context ++ ": " ++ a.obstacle.message

end Abort

def ModuleDecl.instrument (module : ModuleDecl) (tracer : TypeDecl) (config : Config) :
    Except Abort Report × ModuleDecl :=
  match Plan.ofTracer tracer config with
  | .error obstacle => (.error ⟨"Failed to resolve tracer hooks", obstacle⟩, module)
  | .ok plan =>
    let done := plan.run module 0
    match done.answer with
    | .ok report => (.ok report, done.thing)
    | .error obstacle => (.error ⟨"Cannot instrument module " ++ module.name, obstacle⟩, done.thing)

end CilSpan
