import CilSpan.Body.Basic

namespace CilSpan

def asyncAttribute : String := "AsyncStateMachineAttribute"

structure StepPattern where
  stateMarker : String
  faultReport : String
  /-- How many instructions before a `leave` a fault report may stand. -/
  lookback : UInt64
  stepMethod : String
  asyncMark : String
deriving DecidableEq, Repr

namespace StepPattern

def standard : StepPattern := ⟨"__state", "SetException", 3, "MoveNext", asyncAttribute⟩

instance : Inhabited StepPattern := ⟨standard⟩

end StepPattern

structure StateMachine (M : Type) where
  type : TypeName
  methods : List M
deriving Repr

structure MethodDecl where
  name : String
  params : List TypeName
  result : TypeName
  isStatic : Bool
  isAbstract : Bool
  attributes : List String
  body : Option Body
  machine : Option (StateMachine MethodDecl)

structure Owner where
  space : String
  name : String
  base : Option TypeName
  nested : List String
deriving DecidableEq, Repr

structure TypeDecl extends Owner where
  methods : List MethodDecl

structure ModuleDecl where
  name : String
  types : List TypeDecl

mutual

def decideMethod : (a b : MethodDecl) → Decidable (a = b)
  | ⟨name, params, result, isStatic, isAbstract, attributes, body, machine⟩,
    ⟨name', params', result', isStatic', isAbstract', attributes', body', machine'⟩ =>
    if h : name = name' ∧ params = params' ∧ result = result' ∧ isStatic = isStatic' ∧
        isAbstract = isAbstract' ∧ attributes = attributes' ∧ body = body' then
      match decideOption machine machine' with
      | isTrue e => isTrue (by simp [h, e])
      | isFalse e => isFalse (by simp [e])
    else isFalse (by simp_all)
termination_by structural a => a

def decideOption : (a b : Option (StateMachine MethodDecl)) → Decidable (a = b)
  | none, none => isTrue rfl
  | none, some _ => isFalse nofun
  | some _, none => isFalse nofun
  | some a, some b =>
    match decideMachine a b with
    | isTrue e => isTrue (by simp [e])
    | isFalse e => isFalse (by simp [e])
termination_by structural a => a

def decideMachine : (a b : StateMachine MethodDecl) → Decidable (a = b)
  | ⟨type, methods⟩, ⟨type', methods'⟩ =>
    if h : type = type' then
      match decideMethods methods methods' with
      | isTrue e => isTrue (by simp [h, e])
      | isFalse e => isFalse (by simp [e])
    else isFalse (by simp [h])
termination_by structural a => a

def decideMethods : (a b : List MethodDecl) → Decidable (a = b)
  | [], [] => isTrue rfl
  | [], _ :: _ => isFalse nofun
  | _ :: _, [] => isFalse nofun
  | a :: as, b :: bs =>
    match decideMethod a b, decideMethods as bs with
    | isTrue e, isTrue e' => isTrue (by simp [e, e'])
    | isFalse e, _ => isFalse (by simp [e])
    | _, isFalse e => isFalse (by simp [e])
termination_by structural a => a

end

instance : DecidableEq MethodDecl := decideMethod

instance : DecidableEq (StateMachine MethodDecl) := decideMachine

deriving instance DecidableEq for TypeDecl
deriving instance DecidableEq for ModuleDecl

namespace StateMachine

def candidates (m : StateMachine MethodDecl) (stepMethod : String) : List Nat :=
  (m.methods.zipIdx.filter fun (d, _) ↦ d.name = stepMethod && d.body.isSome).map (·.2)

end StateMachine

namespace Owner

def type (o : Owner) : TypeName := ⟨o.space, o.name⟩

end Owner

namespace MethodDecl

def fullName (m : MethodDecl) (owner : Owner) : String :=
  signature owner.type m.name m.params m.result

def isConstructor (m : MethodDecl) : Bool := m.name = ".ctor" && !m.isStatic

def isAsync (m : MethodDecl) (mark : String) : Bool := m.attributes.contains mark

/-- Whether the method yields its results one by one: its result type is some enumerable, and a
generated type is named after it. -/
def isGenerator (m : MethodDecl) (owner : Owner) : Bool :=
  Text.startsWith m.result.name "IEnumerable" &&
    owner.nested.any fun n ↦ Text.startsWith n ("<" ++ m.name ++ ">")

/-- Whether a constructor does nothing but call the base constructor, which takes exactly three
instructions. -/
def isEmptyConstructor (m : MethodDecl) : Bool :=
  m.name = ".ctor" &&
    match m.body with
    | some b => (b.code.filter fun i ↦ i.op ≠ .nop).length = 3
    | none => false

def isConcrete (m : MethodDecl) : Bool := !m.isAbstract && m.body.isSome && !m.isEmptyConstructor

end MethodDecl

end CilSpan
