import CilSpan.Body.Basic

namespace CilSpan

/-- The first instruction with the label, taken out of the code around it. -/
def cut? (l : Label) : List Instr → Option (List Instr × Op × List Instr)
  | [] => none
  | i :: is =>
    if i.label = l then some ([], i.op, is)
    else (cut? l is).map fun (before, op, after) ↦ (i :: before, op, after)

theorem cut?_eq_none {l : Label} {code : List Instr} :
    cut? l code = none ↔ ∀ i ∈ code, i.label ≠ l := by
  induction code with
  | nil => simp [cut?]
  | cons i is ih => by_cases h : i.label = l <;> simp [cut?, h, ih]

theorem cut?_eq_some {l : Label} {code before after : List Instr} {op : Op} :
    cut? l code = some (before, op, after) ↔
      code = before ++ ⟨l, op⟩ :: after ∧ ∀ i ∈ before, i.label ≠ l := by
  induction code generalizing before with
  | nil => simp [cut?]
  | cons i is ih =>
    obtain ⟨k, o⟩ := i
    by_cases h : k = l
    · cases before with
      | nil => simp [cut?, h]
      | cons j js =>
        rw [show cut? l (⟨k, o⟩ :: is) = some ([], o, is) from if_pos h]
        exact ⟨nofun, fun ⟨e, hb⟩ ↦ absurd ((List.cons.inj e).1 ▸ h) (hb j (by simp))⟩
    · cases before with
      | nil => simp [cut?, h]
      | cons j js => simp [cut?, h]; grind

structure OutOfRange where
  index : Nat
  size : Nat
deriving DecidableEq, Repr

namespace OutOfRange

def message (e : OutOfRange) : String :=
  let index := Text.ofNat e.index
  let size := Text.ofNat e.size
  s!"insertion index {index} out of range for body of {size} instructions"

end OutOfRange

namespace Body

def freshLabel (b : Body) : Label := ⟨b.next⟩

def create (b : Body) (op : Op) : Instr × Body :=
  (⟨b.freshLabel, op⟩, { b with next := b.next + 1 })

def createAll (b : Body) : List Op → List Instr × Body
  | [] => ([], b)
  | op :: ops =>
    let (i, b) := b.create op
    let (is, b) := b.createAll ops
    (i :: is, b)

theorem map_op_createAll (b : Body) (ops : List Op) :
    (b.createAll ops).1.map Instr.op = ops := by
  induction ops generalizing b with
  | nil => rfl
  | cons op ops ih => exact congrArg (op :: ·) (ih _)

theorem createAll_eq (b : Body) (ops : List Op) :
    (b.createAll ops).2 = { b with next := b.next + .ofNat ops.length } := by
  induction ops generalizing b with
  | nil => simp [createAll]
  | cons op ops ih => simp [createAll, create, ih, UInt32.ofNat_add]; ac_rfl

def append (b : Body) (run : List Instr) : Body := { b with code := b.code ++ run }

def push (b : Body) (op : Op) : Label × Body :=
  let (i, b) := b.create op
  (i.label, b.append [i])

def splice (b : Body) (index : Nat) (run : List Instr) : Except OutOfRange Body :=
  if index ≤ b.size then
    .ok { b with code := b.code.take index ++ run ++ b.code.drop index }
  else .error ⟨index, b.size⟩

/-- Splices in new instructions. Their labels are used up even if there is no such place. -/
def insert (b : Body) (index : Nat) (ops : List Op) : Except OutOfRange (List Label) × Body :=
  let (run, b) := b.createAll ops
  match b.splice index run with
  | .ok b => (.ok (run.map Instr.label), b)
  | .error e => (.error e, b)

def insertAfter (b : Body) (l : Label) (ops : List Op) : Body :=
  match cut? l b.code with
  | none => b
  | some (before, op, after) =>
    let (run, b) := b.createAll ops
    { b with code := before ++ ⟨l, op⟩ :: run ++ after }

/-- Makes every way of reaching `anchor` run new code first. The anchor keeps its label but becomes
a `nop`; the new code follows, and then a new instruction with the operation that the anchor had,
whose label is the answer. -/
def insertAhead (b : Body) (anchor : Label) (ops : List Op) : Option Label × Body :=
  match cut? anchor b.code with
  | none => (none, b)
  | some (before, op, after) =>
    let (run, b) := b.createAll ops
    let (moved, b) := b.create op
    (some moved.label, { b with code := before ++ ⟨anchor, .nop⟩ :: run ++ moved :: after })

def setOp (b : Body) (l : Label) (op : Op) : Body :=
  match cut? l b.code with
  | none => b
  | some (before, _, after) => { b with code := before ++ ⟨l, op⟩ :: after }

def addLocal (b : Body) (type : TypeName) : Except Flaw UInt16 × Body :=
  let slot := b.locals.length
  if slot < UInt16.size then (.ok (.ofNat slot), { b with locals := b.locals ++ [type] })
  else (.error (.tooManyLocals slot), b)

def addRegion (b : Body) (r : Region) : Body := { b with regions := b.regions ++ [r] }

end Body

end CilSpan
