import CilSpan.Ref
import CilSpan.Text

namespace CilSpan

inductive Value
  | int (n : Int32)
  | str (s : String)
  | null
  | object (number : UInt32)
deriving DecidableEq, Repr, Inhabited

namespace Value

def isTrue : Value → Bool
  | int n => n ≠ 0
  | null => false
  | str _ | object _ => true

def text : Value → String
  | int n => Text.ofInt n.toInt
  | str s => Text.quoted s
  | null => "null"
  | object number => "obj#" ++ Text.ofNat number.toNat

def ofBool (b : Bool) : Value := int (if b then 1 else 0)

def zero (type : TypeName) : Value := if type = .int32 then int 0 else null

end Value

structure Cell where
  object : UInt32
  name : String
  value : Value
deriving DecidableEq, Repr

/-- `cells` are all stores so far, newest first. Objects are numbered in the order of their making,
and `next` is the number of the next. -/
structure Heap where
  next : UInt32
  cells : List Cell
deriving DecidableEq, Repr

namespace Heap

def empty : Heap := ⟨0, []⟩

instance : Inhabited Heap := ⟨empty⟩

def alloc (h : Heap) : UInt32 × Heap := (h.next, { h with next := h.next + 1 })

def read? (h : Heap) (object : UInt32) (name : String) : Option Value :=
  (h.cells.find? fun c ↦ c.object = object ∧ c.name = name).map Cell.value

def write (h : Heap) (object : UInt32) (name : String) (value : Value) : Heap :=
  { h with cells := ⟨object, name, value⟩ :: h.cells }

theorem read?_write_self (h : Heap) (object : UInt32) (name : String) (value : Value) :
    (h.write object name value).read? object name = some value := by
  simp [read?, write]

theorem read?_write_of_ne (h : Heap) {object object' : UInt32} {name name' : String}
    (value : Value) (hne : ¬(object = object' ∧ name = name')) :
    (h.write object name value).read? object' name' = h.read? object' name' := by
  simp [read?, write, hne]

def get (h : Heap) (object : UInt32) (field : FieldName) : Value :=
  (h.read? object field.name).getD (.zero field.type)

def set (h : Heap) (object : UInt32) (field : FieldName) (value : Value) : Heap :=
  h.write object field.name value

end Heap

inductive Reply
  | back (value : Option Value)
  | raise (exception : Value)
deriving DecidableEq, Repr

/-- Arguments come with the receiver first. -/
structure Host (σ : Type) where
  call : Callee → List Value → Heap → σ → Reply × Heap × σ

def Callee.zeroReply (c : Callee) : Reply :=
  .back (if c.returns then some (.zero c.result) else none)

namespace Host

def idle : Host Unit where
  call callee _ heap world := (callee.zeroReply, heap, world)

end Host

end CilSpan
