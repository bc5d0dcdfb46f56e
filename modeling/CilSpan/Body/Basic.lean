import CilSpan.Instr

namespace CilSpan

inductive Handler
  | cleanup
  | rescue (type : TypeName)
deriving DecidableEq, Repr

/-- A protected range and its handler. Both ranges end before their end label. -/
structure Region where
  handler : Handler
  tryStart : Label
  tryEnd : Label
  handlerStart : Label
  handlerEnd : Label
deriving DecidableEq, Repr

namespace Region

def boundaries (r : Region) : List Label := [r.tryStart, r.tryEnd, r.handlerStart, r.handlerEnd]

end Region

/-- `regions` stand innermost first, and `next` is the label number to give out next. -/
structure Body where
  code : List Instr
  locals : List TypeName
  regions : List Region
  initLocals : Bool
  next : UInt32
deriving DecidableEq, Repr

namespace Body

def empty : Body := ⟨[], [], [], false, 0⟩

instance : Inhabited Body := ⟨empty⟩

def size (b : Body) : Nat := b.code.length

def labels (b : Body) : List Label := b.code.map Instr.label

def position? (b : Body) (l : Label) : Option Nat := b.code.findIdx? fun i ↦ i.label = l

def find? (b : Body) (l : Label) : Option Instr := b.code.find? fun i ↦ i.label = l

def calls (b : Body) (callee : Callee) : Bool := b.code.any fun i ↦ i.op.callee? = some callee

def targets (b : Body) : List Label := b.code.filterMap fun i ↦ i.op.target?

end Body

inductive Flaw
  | repeatedLabel (label : Label)
  | danglingBranch (source target : Label)
  | danglingRegion (index : Nat) (label : Label)
  | regionOrder (index : Nat)
  | undeclaredLocal (label : Label) (slot : UInt16)
  | unboundLabel (label : Label)
  | tooManyLocals (count : Nat)
deriving DecidableEq, Repr

namespace Flaw

def message : Flaw → String
  | repeatedLabel label => s!"instruction {label} appears more than once"
  | danglingBranch source target => s!"{source} branches to {target}, which is not in the body"
  | danglingRegion index label =>
    let number := Text.ofNat index
    s!"exception region #{number} references {label}, which is not in the body"
  | regionOrder index =>
    let number := Text.ofNat index
    s!"exception region #{number} boundaries are out of order"
  | undeclaredLocal label slot =>
    let number := Text.ofNat slot.toNat
    s!"{label} uses local {number}, which is not declared"
  | unboundLabel label => s!"label {label} was never bound to an instruction"
  | tooManyLocals count =>
    let number := Text.ofNat count
    s!"method already declares {number} locals, the most a body can hold"

end Flaw

def firstRepeat (seen : List Label) : List Label → Option Label
  | [] => none
  | l :: ls => if l ∈ seen then some l else firstRepeat (l :: seen) ls

theorem firstRepeat_eq_none {seen ls : List Label} :
    firstRepeat seen ls = none ↔ ls.Nodup ∧ ∀ l ∈ ls, l ∉ seen := by
  induction ls generalizing seen with
  | nil => simp [firstRepeat]
  | cons l ls ih => by_cases h : l ∈ seen <;> grind [firstRepeat]

namespace Body

def instrFlaw? (b : Body) (i : Instr) : Option Flaw :=
  match i.op.target?, i.op.slot? with
  | some target, _ => if target ∈ b.labels then none else some (.danglingBranch i.label target)
  | none, some slot =>
    if slot.toNat < b.locals.length then none else some (.undeclaredLocal i.label slot)
  | none, none => none

def boundaryFlaw? (b : Body) (index least : Nat) : List Label → Option Flaw
  | [] => none
  | l :: ls =>
    match b.position? l with
    | none => some (.danglingRegion index l)
    | some p => if p < least then some (.regionOrder index) else b.boundaryFlaw? index p ls

def regionFlaw? (b : Body) (index : Nat) (r : Region) : Option Flaw :=
  b.boundaryFlaw? index 0 r.boundaries

def flaw? (b : Body) : Option Flaw :=
  match firstRepeat [] b.labels with
  | some l => some (.repeatedLabel l)
  | none =>
    match b.code.findSome? b.instrFlaw? with
    | some flaw => some flaw
    | none => b.regions.zipIdx.findSome? fun (r, index) ↦ b.regionFlaw? index r

end Body

end CilSpan
