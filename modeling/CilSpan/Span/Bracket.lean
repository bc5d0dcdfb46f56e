import CilSpan.Span.Refusal

namespace CilSpan

/-- Where every return now leads: the label it begins with and how many instructions it has. -/
structure Funnel where
  label : Label
  size : Nat
deriving DecidableEq, Repr

def Op.constructs (base : TypeName) : Op → Bool
  | .call callee => callee.isConstructor && callee.owner = base
  | _ => false

namespace Body

def returns (b : Body) : List Label := (b.code.filter fun i ↦ i.op = .ret).map Instr.label

def baseCall? (b : Body) (base : TypeName) : Option Label :=
  (b.code.find? fun i ↦ i.op.constructs base).map Instr.label

def leaveReturns (b : Body) (funnel : Label) (returns : List Label) : Body :=
  returns.foldl (fun b l ↦ b.setOp l (.branch .leave .long funnel)) b

def storeReturns (b : Body) (slot : UInt16) (funnel : Label) (returns : List Label) : Body :=
  returns.foldl
    (fun b l ↦ (b.setOp l (.stloc slot)).insertAfter l [.branch .leave .long funnel]) b

end Body

namespace Edit

/-- Leads every `ret` into one funnel at the end. A result travels in a new local. -/
def funnelReturns (result : TypeName) : Edit Funnel := do
  let returns := (← get).returns
  if result.isVoid then
    let exit ← create .ret
    modify fun b ↦ (b.leaveReturns exit.label returns).append [exit]
    return ⟨exit.label, 1⟩
  else
    let slot ← addLocal result
    let load ← create (.ldloc slot)
    modify fun b ↦ ((b.storeReturns slot load.label returns).append [load]).push .ret |>.2
    return ⟨load.label, 2⟩

def findBaseCall (base : Option TypeName) : Edit (Option Label) := fun b ↦
  match base with
  | none => .ok none b
  | some base =>
    match b.baseCall? base with
    | some l => .ok (some l) b
    | none => .error .noBaseCall b

def spanStart (baseCall : Option Label) : Edit Nat := fun b ↦
  match baseCall with
  | none => .ok 0 b
  | some l =>
    match b.position? l with
    | some position => if position + 1 < b.size then .ok (position + 1) b else .error .noBaseCall b
    | none => .error .noBaseCall b

/-- Puts a span around the body. In an instance constructor, whose base type is given, the span
begins after the base constructor has run. -/
def bracket (base : Option TypeName) (result : TypeName) (name : String) (hooks : Hooks) :
    Edit Unit := do
  enter hooks
  let baseCall ← findBaseCall base
  modify Body.lengthen
  let funnel ← funnelReturns result
  let start ← spanStart baseCall
  let guarded ← labelAt start
  insert start [.ldstr name, .call hooks.enter]
  let cleanup := (← get).freshLabel
  insertBeforeLast funnel.size [.nop, .call hooks.exit, .endfinally]
  modify (·.addRegion ⟨.cleanup, guarded, cleanup, cleanup, funnel.label⟩)
  finish

end Edit

namespace Body

def bracket (b : Body) (base : Option TypeName) (result : TypeName) (name : String)
    (hooks : Hooks) : Except Refusal Unit × Body :=
  match Edit.bracket base result name hooks b with
  | .ok _ b => (.ok (), b)
  | .error e b => (.error e, b)

end Body

end CilSpan
