import CilSpan.Json.Value

namespace CilSpan.Json

def str? : Json → Option String
  | .str s => some s
  | _ => none

def bool? : Json → Option Bool
  | .bool b => some b
  | _ => none

def nat? (bound : Nat) : Json → Option Nat
  | .int (.ofNat n) => if n < bound then some n else none
  | _ => none

def uint16? (j : Json) : Option UInt16 := (j.nat? UInt16.size).map UInt16.ofNat
def uint32? (j : Json) : Option UInt32 := (j.nat? UInt32.size).map UInt32.ofNat
def uint64? (j : Json) : Option UInt64 := (j.nat? UInt64.size).map UInt64.ofNat

def int32? : Json → Option Int32
  | .int n => if Int32.minValue.toInt ≤ n ∧ n ≤ Int32.maxValue.toInt then some (Int32.ofInt n) else none
  | _ => none

def ofNat (n : Nat) : Json := .int n
def ofUInt16 (n : UInt16) : Json := .int n.toNat
def ofUInt32 (n : UInt32) : Json := .int n.toNat
def ofUInt64 (n : UInt64) : Json := .int n.toNat
def ofInt32 (n : Int32) : Json := .int n.toInt

def list? {α : Type} (read : Json → Option α) : Json → Option (List α)
  | .arr items => items.mapM read
  | _ => none

def ofList {α : Type} (write : α → Json) (xs : List α) : Json := .arr (xs.map write)

def option? {α : Type} (read : Json → Option α) : Option Json → Option (Option α)
  | none | some .null => some none
  | some j => (read j).map some

def ofOption {α : Type} (write : α → Json) : Option α → Json
  | none => .null
  | some x => write x

def member? (key : String) (members : List (String × Json)) : Option Json :=
  (members.find? fun m ↦ m.1 = key).map (·.2)

def distinctKeys (names : List String) (members : List (String × Json)) : Bool :=
  names.all fun name ↦ (members.filter fun m ↦ m.1 = name).length ≤ 1

/-- The values of the named fields, in the order of the names; `none` for one that is absent. -/
def record? (names : List String) : Json → Option (List (Option Json))
  | .obj members =>
    if distinctKeys names members then some (names.map fun name ↦ member? name members) else none
  | .arr items => if items.length = names.length then some (items.map some) else none
  | _ => none

def recordPrefix? (names : List String) : Json → Option (List (Option Json))
  | .arr items =>
    if items.length ≤ names.length then
      some (items.map some ++ List.replicate (names.length - items.length) none)
    else none
  | j => record? names j

def variant? : Json → Option (String × Option Json)
  | .str word => some (word, none)
  | .obj [(word, operand)] => some (word, some operand)
  | _ => none

def isBare : Option Json → Bool
  | none | some .null => true
  | _ => false

end CilSpan.Json
