import CilSpan.Draft.Desk
import Mathlib.Data.List.Forall2

namespace CilSpan

namespace Desk

inductive Mark
  | bind (number : Nat)
  | emit (op : Op)
deriving DecidableEq

structure Zone where
  handler : Handler
  tryStart : Nat
  tryEnd : Nat
  handlerStart : Nat
  handlerEnd : Nat
deriving DecidableEq

def Zone.numbers (z : Zone) : List Nat := [z.tryStart, z.tryEnd, z.handlerStart, z.handlerEnd]

/-- The code for the marks: every operation, with the number of the label that was bound right ahead of
it, if one was. Where a label was bound right ahead of another one there is a `nop` for it. -/
def written : List Mark → List (Option Nat × Op)
  | [] => []
  | .emit op :: marks => (none, op) :: written marks
  | .bind number :: .emit op :: marks => (some number, op) :: written marks
  | .bind number :: .bind next :: marks => (some number, .nop) :: written (.bind next :: marks)
  | [.bind _] => []

def open? (marks : List Mark) : Option Nat :=
  match marks.getLast? with
  | some (.bind number) => some number
  | _ => none

def bound (marks : List Mark) : List Nat :=
  marks.filterMap fun
    | .bind number => some number
    | .emit _ => none

def place? (marks : List Mark) (number : Nat) : Option Nat :=
  (written marks).findIdx? fun w ↦ w.1 = some number

structure Outline where
  labels : Nat
  marks : List Mark
  locals : List TypeName
  zones : List Zone
  initLocals : Bool
deriving DecidableEq

namespace Outline

def empty : Outline := ⟨0, [], [], [], false⟩

def note (o : Outline) : Act → Outline
  | .label => { o with labels := o.labels + 1 }
  | .bind number => { o with marks := o.marks ++ [.bind number] }
  | .emit op => { o with marks := o.marks ++ [.emit op] }
  | .emitAll ops => { o with marks := o.marks ++ ops.map .emit }
  | .addLocal type => { o with locals := o.locals ++ [type] }
  | .addRegion handler tryStart tryEnd handlerStart handlerEnd =>
    { o with zones := o.zones ++ [⟨handler, tryStart, tryEnd, handlerStart, handlerEnd⟩] }
  | .setInitLocals value => { o with initLocals := value }

def after (o : Outline) : List Act → Outline
  | [] => o
  | act :: acts => (o.note act).after acts

def Allows (o : Outline) : Act → Prop
  | .bind number => number < o.labels
  | .addRegion handler tryStart tryEnd handlerStart handlerEnd =>
    ∀ k ∈ (Zone.mk handler tryStart tryEnd handlerStart handlerEnd).numbers, k < o.labels
  | _ => True

def AllowsAll (o : Outline) : List Act → Prop
  | [] => True
  | act :: acts => o.Allows act ∧ (o.note act).AllowsAll acts

/-- How many label numbers are used up: one for each label handed out, and one for each instruction
that none of them was bound to. -/
def drawn (o : Outline) : Nat := o.labels + (written o.marks).countP fun w ↦ w.1.isNone

end Outline

variable {marks : List Mark} {op : Op} {number : Nat}

theorem open?_emit : open? (marks ++ [.emit op]) = none := by simp [open?]

theorem open?_bind : open? (marks ++ [.bind number]) = some number := by simp [open?]

theorem open?_cons (mark mark' : Mark) :
    open? (mark :: mark' :: marks) = open? (mark' :: marks) := by
  simp [open?]

theorem open?_emit_cons : open? (.emit op :: marks) = open? marks := by
  cases marks with
  | nil => rfl
  | cons mark marks => exact open?_cons _ _

theorem written_emit :
    written (marks ++ [.emit op]) = written marks ++ [(open? marks, op)] := by
  induction marks using written.induct with
  | case1 => rfl
  | case2 op' marks ih => simp [written, open?_emit_cons, ih]
  | case3 number op' marks ih => simp [written, open?_cons, open?_emit_cons, ih]
  | case4 number next marks ih => simpa [written, open?_cons] using ih
  | case5 number => rfl

theorem written_bind : written (marks ++ [.bind number]) =
    written marks ++ (open? marks).toList.map fun k ↦ (some k, .nop) := by
  induction marks using written.induct with
  | case1 => rfl
  | case2 op' marks ih => simp [written, open?_emit_cons, ih]
  | case3 number op' marks ih => simp [written, open?_cons, open?_emit_cons, ih]
  | case4 number next marks ih => simpa [written, open?_cons] using ih
  | case5 number => rfl

/-- The labels that are bound are those in the code, and the one that waits. -/
theorem bound_eq : bound marks = (written marks).filterMap Prod.fst ++ (open? marks).toList := by
  induction marks using written.induct with
  | case1 => rfl
  | case2 op marks ih => simpa [written, open?_emit_cons, bound] using ih
  | case3 number op marks ih => simpa [written, open?_cons, open?_emit_cons, bound] using ih
  | case4 number next marks ih => simpa [written, open?_cons, bound] using ih
  | case5 number => rfl

theorem bound_append (marks later : List Mark) :
    bound (marks ++ later) = bound marks ++ bound later :=
  List.filterMap_append

theorem exists_written_of_emit (h : .emit op ∈ marks) : ∃ k?, (k?, op) ∈ written marks := by
  induction marks using written.induct with
  | case1 => cases h
  | case2 op' marks ih | case3 number op' marks ih =>
    simp only [List.mem_cons, reduceCtorEq, false_or, Mark.emit.injEq] at h
    obtain rfl | h := h
    · exact ⟨_, List.mem_cons_self⟩
    · obtain ⟨k?, hk⟩ := ih h
      exact ⟨k?, List.mem_cons_of_mem _ hk⟩
  | case4 number next marks ih =>
    obtain ⟨k?, hk⟩ := ih (by simpa using h)
    exact ⟨k?, List.mem_cons_of_mem _ hk⟩
  | case5 number => simp at h

/-- Nothing is in the code but what has been asked for, and the `nop`s. -/
theorem emit_of_written {k? : Option Nat} (h : (k?, op) ∈ written marks) :
    .emit op ∈ marks ∨ op = .nop := by
  induction marks using written.induct with
  | case1 => cases h
  | case2 op' marks ih | case3 number op' marks ih =>
    simp only [written, List.mem_cons, Prod.mk.injEq] at h
    obtain ⟨-, rfl⟩ | h := h
    · exact .inl (by simp)
    · exact (ih h).imp_left fun hm ↦ by simp [hm]
  | case4 number next marks ih =>
    simp only [written, List.mem_cons, Prod.mk.injEq] at h
    obtain ⟨-, rfl⟩ | h := h
    · exact .inr rfl
    · exact (ih h).imp_left fun hm ↦ by simpa using hm
  | case5 number => cases h

theorem prefix_written (marks later : List Mark) : written marks <+: written (marks ++ later) := by
  induction later generalizing marks with
  | nil => exact (List.append_nil marks).symm ▸ List.prefix_rfl
  | cons mark later ih =>
    have hstep : written marks <+: written (marks ++ [mark]) := by
      cases mark with
      | bind number => exact written_bind ▸ List.prefix_append _ _
      | emit op => exact written_emit ▸ List.prefix_append _ _
    have hrest := ih (marks ++ [mark])
    rw [List.append_assoc] at hrest
    exact hstep.trans hrest

namespace Outline

theorem drawn_le_note (o : Outline) (act : Act) : o.drawn ≤ (o.note act).drawn := by
  have hmarks : ∀ later, o.drawn ≤ { o with marks := o.marks ++ later }.drawn := fun later ↦
    Nat.add_le_add_left (prefix_written o.marks later).sublist.countP_le _
  cases act with
  | label => exact Nat.add_le_add_right (Nat.le_succ _) _
  | bind number => exact hmarks _
  | emit op => exact hmarks _
  | emitAll ops => exact hmarks _
  | _ => exact Nat.le_refl _

theorem drawn_le_after (o : Outline) (acts : List Act) : o.drawn ≤ (o.after acts).drawn := by
  induction acts generalizing o with
  | nil => exact Nat.le_refl _
  | cons act acts ih => exact Nat.le_trans (o.drawn_le_note act) (ih _)

end Outline

end Desk

end CilSpan
