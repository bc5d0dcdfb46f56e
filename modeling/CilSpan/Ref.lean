namespace CilSpan

structure TypeName where
  space : String
  name : String
deriving DecidableEq, Repr, Inhabited

namespace TypeName

def void : TypeName := ⟨"System", "Void"⟩
def int32 : TypeName := ⟨"System", "Int32"⟩
def string : TypeName := ⟨"System", "String"⟩
def object : TypeName := ⟨"System", "Object"⟩
def exception : TypeName := ⟨"System", "Exception"⟩

def full (t : TypeName) : String :=
  if t.space = "" then t.name else t.space ++ "." ++ t.name

instance : ToString TypeName := ⟨full⟩

def isVoid (t : TypeName) : Bool := t = void

end TypeName

/-- A routine as the operand of a call. `params` does not count the receiver, which an instance
routine takes in front of them. -/
structure Callee where
  owner : TypeName
  name : String
  params : List TypeName
  result : TypeName
  hasThis : Bool
deriving DecidableEq, Repr, Inhabited

/-- `Result Owner::Name(Param,Param)` -/
def signature (owner : TypeName) (name : String) (params : List TypeName) (result : TypeName) :
    String :=
  let list := String.intercalate "," (params.map TypeName.full)
  s!"{result} {owner}::{name}({list})"

namespace Callee

def static (owner : TypeName) (name : String) (params : List TypeName) (result : TypeName) :
    Callee :=
  ⟨owner, name, params, result, false⟩

def method (owner : TypeName) (name : String) (params : List TypeName) (result : TypeName) :
    Callee :=
  ⟨owner, name, params, result, true⟩

def constructor (owner : TypeName) (params : List TypeName) : Callee :=
  method owner ".ctor" params .void

def isConstructor (c : Callee) : Bool := c.name = ".ctor"

def arity (c : Callee) : Nat := c.params.length + if c.hasThis then 1 else 0

def returns (c : Callee) : Bool := !c.result.isVoid

def text (c : Callee) : String := signature c.owner c.name c.params c.result

instance : ToString Callee := ⟨text⟩

end Callee

structure FieldName where
  owner : TypeName
  name : String
  type : TypeName
deriving DecidableEq, Repr, Inhabited

inductive Hook
  | enter
  | exit
  | asyncEnter
  | asyncExit
deriving DecidableEq, Repr

structure Hooks where
  enter : Callee
  exit : Callee
  asyncEnter : Callee
  asyncExit : Callee
deriving DecidableEq, Repr

namespace Hook

def all : List Hook := [enter, exit, asyncEnter, asyncExit]

def name : Hook → String
  | enter => "Begin"
  | exit => "End"
  | asyncEnter => "AsyncBegin"
  | asyncExit => "AsyncEnd"

def params : Hook → List TypeName
  | enter => [.string]
  | exit => []
  | asyncEnter | asyncExit => [.int32, .string]

def callee (hook : Hook) (tracer : TypeName) : Callee :=
  .static tracer hook.name hook.params .void

def signature (hook : Hook) : String :=
  hook.name ++ "(" ++ String.intercalate "," (hook.params.map TypeName.full) ++ ")"

end Hook

namespace Hooks

def on (tracer : TypeName) : Hooks where
  enter := Hook.enter.callee tracer
  exit := Hook.exit.callee tracer
  asyncEnter := Hook.asyncEnter.callee tracer
  asyncExit := Hook.asyncExit.callee tracer

def get (h : Hooks) : Hook → Callee
  | .enter => h.enter
  | .exit => h.exit
  | .asyncEnter => h.asyncEnter
  | .asyncExit => h.asyncExit

def all (h : Hooks) : List Callee := Hook.all.map h.get

/-- The first hook, in the order of `Hook.all`, that is this very routine. -/
def hook? (h : Hooks) (callee : Callee) : Option Hook :=
  Hook.all.find? fun hook ↦ callee = h.get hook

end Hooks

end CilSpan
