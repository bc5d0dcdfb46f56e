import CilSpan.Ref
import CilSpan.Text

namespace CilSpan

structure Label where
  val : UInt32
deriving DecidableEq, Repr, Inhabited

instance : ToString Label := ⟨fun l ↦ "i" ++ Text.ofNat l.val.toNat⟩

/-- What makes a branch jump. `leave` jumps out of a protected range, by way of the handlers that
have to run on the way. -/
inductive Jump
  | always
  | ifTrue
  | ifFalse
  | leave
deriving DecidableEq, Repr

inductive Width
  | short
  | long
deriving DecidableEq, Repr

inductive Arith
  | add
  | sub
  | mul
  | clt
  | cgt
deriving DecidableEq, Repr

inductive Op
  | nop
  | ldnull
  | ret
  | endfinally
  | throw
  | pop
  | dup
  | ceq
  | arith (op : Arith)
  | ldarg (index : UInt16)
  | ldloc (slot : UInt16)
  | stloc (slot : UInt16)
  | ldc (value : Int32)
  | ldstr (text : String)
  | ldfld (field : FieldName)
  | stfld (field : FieldName)
  | call (callee : Callee)
  | callvirt (callee : Callee)
  | newobj (ctor : Callee)
  | branch (jump : Jump) (width : Width) (target : Label)
deriving DecidableEq, Repr

namespace Arith

def apply : Arith → Int32 → Int32 → Int32
  | add, a, b => a + b
  | sub, a, b => a - b
  | mul, a, b => a * b
  | clt, a, b => if a < b then 1 else 0
  | cgt, a, b => if b < a then 1 else 0

def size : Arith → Nat
  | add | sub | mul => 1
  | clt | cgt => 2

end Arith

namespace Op

def target? : Op → Option Label
  | branch _ _ target => some target
  | _ => none

def isLeave : Op → Bool
  | branch .leave _ _ => true
  | _ => false

def isShort : Op → Bool
  | branch _ .short _ => true
  | _ => false

def isLong : Op → Bool
  | branch _ .long _ => true
  | _ => false

def withWidth (width : Width) : Op → Op
  | branch jump _ target => branch jump width target
  | op => op

def lengthen : Op → Op := withWidth .long
def shorten : Op → Op := withWidth .short

def slot? : Op → Option UInt16
  | ldloc slot | stloc slot => some slot
  | _ => none

/-- The routine a call names; creating an object is not a call. -/
def callee? : Op → Option Callee
  | call callee | callvirt callee => some callee
  | _ => none

def callsNamed (name : String) : Op → Bool
  | call callee => callee.name = name
  | _ => false

def slotSize (slot : UInt16) : Nat :=
  if slot ≤ 3 then 1 else if slot ≤ 255 then 2 else 4

/-- Bytes of the most compact encoding. Only branches come in the width they carry. -/
def size : Op → Nat
  | nop | ldnull | ret | endfinally | throw | pop | dup => 1
  | ceq => 2
  | arith op => op.size
  | ldarg slot | ldloc slot | stloc slot => slotSize slot
  | ldc value => if -1 ≤ value ∧ value ≤ 8 then 1 else if -128 ≤ value ∧ value ≤ 127 then 2 else 5
  | ldstr _ | ldfld _ | stfld _ | call _ | callvirt _ | newobj _ => 5
  | branch _ .short _ => 2
  | branch _ .long _ => 5

end Op

structure Instr where
  label : Label
  op : Op
deriving DecidableEq, Repr

end CilSpan
