import CilSpan.Body.Basic

namespace CilSpan

def offsetsFrom (start : Nat) : List Instr → List (Label × Nat)
  | [] => []
  | i :: is => (i.label, start) :: offsetsFrom (start + i.op.size) is

/-- The offset of a label; of a repeated one the last. -/
def offset? (l : Label) : List (Label × Nat) → Option Nat
  | [] => none
  | (k, place) :: rest =>
    match offset? l rest with
    | some later => some later
    | none => if k = l then some place else none

def codeSize : List Instr → Nat
  | [] => 0
  | i :: is => i.op.size + codeSize is

def fitsByte (displacement : Int) : Bool := -128 ≤ displacement ∧ displacement ≤ 127

/-- How far a branch at `source` jumps once it is short. A target behind it moves up by the three
bytes that the branch loses, so the long size counts there. -/
def shortReach (source target : Nat) : Int :=
  if source < target then target - source - 5 else target - source - 2

def inReach (table : List (Label × Nat)) (source target : Label) : Bool :=
  match offset? target table, offset? source table with
  | some t, some s => fitsByte (shortReach s t)
  | _, _ => false

def shrink (table : List (Label × Nat)) (i : Instr) : Instr :=
  match i.op with
  | .branch jump .long target =>
    if inReach table i.label target then { i with op := .branch jump .short target } else i
  | _ => i

theorem label_shrink (table : List (Label × Nat)) (i : Instr) :
    (shrink table i).label = i.label := by
  unfold shrink; split <;> (try split) <;> rfl

theorem lengthen_shrink (table : List (Label × Nat)) (i : Instr) :
    (shrink table i).op.lengthen = i.op.lengthen := by
  unfold shrink; split
  · split <;> simp_all [Op.lengthen, Op.withWidth]
  · rfl

def shrinkPass (code : List Instr) : List Instr := code.map (shrink (offsetsFrom 0 code))

def shrinkPasses : Nat → List Instr → List Instr
  | 0, code => code
  | n + 1, code =>
    let shrunk := shrinkPass code
    if shrunk = code then code else shrinkPasses n shrunk

theorem labels_shrinkPasses (n : Nat) (code : List Instr) :
    (shrinkPasses n code).map Instr.label = code.map Instr.label := by
  induction n generalizing code with
  | zero => rfl
  | succ n ih =>
    simp only [shrinkPasses]
    split
    · rfl
    · rw [ih, shrinkPass, List.map_map]
      exact List.map_congr_left fun i _ ↦ label_shrink _ i

def longCount (code : List Instr) : Nat := code.countP fun i ↦ i.op.isLong

namespace Body

def offsets (b : Body) : List (Label × Nat) := offsetsFrom 0 b.code

def codeSize (b : Body) : Nat := CilSpan.codeSize b.code

def lengthen (b : Body) : Body :=
  { b with code := b.code.map fun i ↦ { i with op := i.op.lengthen } }

/-- Makes branches short until no long one can be. Every pass but the last shrinks one, so as many
passes as there are long branches are enough. -/
def shorten (b : Body) : Body := { b with code := shrinkPasses (longCount b.code) b.code }

end Body

end CilSpan
