import CilSpan.Proofs.Body.Sound
import CilSpan.Body.Layout
import Mathlib.Data.Nat.Init

namespace CilSpan

def sizeAt (code : List Instr) (n : Nat) : Nat := code[n]?.elim 0 fun i ↦ i.op.size

def byteAt (code : List Instr) (n : Nat) : Nat := codeSize (code.take n)

def Instr.shorten (i : Instr) : Instr := { i with op := i.op.shorten }

def displacement? (code : List Instr) (i : Instr) : Option Int := do
  let target ← i.op.target?
  let there ← offset? target (offsetsFrom 0 code)
  let here ← offset? i.label (offsetsFrom 0 code)
  return there - (here + i.op.size)

namespace Op

theorem slotSize_pos (slot : UInt16) : 0 < slotSize slot := by
  unfold slotSize
  split
  · exact Nat.one_pos
  · split <;> exact Nat.zero_lt_succ _

theorem size_pos (op : Op) : 0 < op.size := by
  cases op with
  | arith op => cases op <;> exact Nat.zero_lt_succ _
  | branch _ width _ => cases width <;> exact Nat.zero_lt_succ _
  | ldarg slot | ldloc slot | stloc slot => exact slotSize_pos slot
  | ldc value =>
    simp only [size]
    split
    · exact Nat.one_pos
    · split <;> exact Nat.zero_lt_succ _
  | _ => exact Nat.zero_lt_succ _

theorem isLong_iff {op : Op} :
    op.isLong = true ↔ ∃ jump target, op = .branch jump .long target := by
  constructor
  · intro h
    cases op with
    | branch jump width target =>
      cases width with
      | short => cases h
      | long => exact ⟨jump, target, rfl⟩
    | _ => cases h
  · rintro ⟨jump, target, rfl⟩
    rfl

end Op

theorem codeSize_append (code rest : List Instr) :
    codeSize (code ++ rest) = codeSize code + codeSize rest := by
  induction code with
  | nil => exact (Nat.zero_add _).symm
  | cons i is ih => simp only [List.cons_append, codeSize, ih, Nat.add_assoc]

theorem byteAt_succ (code : List Instr) (n : Nat) :
    byteAt code (n + 1) = byteAt code n + sizeAt code n := by
  simp only [byteAt, sizeAt, List.take_add_one, codeSize_append]
  cases code[n]? <;> rfl

theorem byteAt_length (code : List Instr) : byteAt code code.length = codeSize code := by
  rw [byteAt, List.take_length]

theorem offset?_eq_none {l : Label} {code : List Instr} {start : Nat}
    (h : l ∉ code.map Instr.label) : offset? l (offsetsFrom start code) = none := by
  induction code generalizing start with
  | nil => rfl
  | cons i is ih =>
    rw [List.map_cons, List.mem_cons, not_or] at h
    simp only [offsetsFrom, offset?, ih h.2, if_neg (Ne.symm h.1)]

theorem offset?_append (before : List Instr) {after : List Instr} {i : Instr} (start : Nat)
    (h : i.label ∉ after.map Instr.label) :
    offset? i.label (offsetsFrom start (before ++ i :: after)) =
      some (start + codeSize before) := by
  induction before generalizing start with
  | nil => simp only [List.nil_append, offsetsFrom, offset?, offset?_eq_none h, if_true]; rfl
  | cons k before ih =>
    simp only [List.cons_append, offsetsFrom, offset?, ih, codeSize, Nat.add_assoc]

variable {code code' : List Instr} {m n : Nat} {i j : Instr}

theorem offset?_of_getElem? (hn : (code.map Instr.label).Nodup) (hi : code[n]? = some i) :
    offset? i.label (offsetsFrom 0 code) = some (byteAt code n) := by
  obtain ⟨hlt, rfl⟩ := List.getElem?_eq_some_iff.1 hi
  have hsplit : code = code.take n ++ code[n] :: code.drop (n + 1) := by simp
  have hlater : code[n].label ∉ (code.drop (n + 1)).map Instr.label := by
    rw [hsplit, List.map_append, List.map_cons] at hn
    exact (List.nodup_cons.1 (List.nodup_append.1 hn).2.1).1
  have hoff := offset?_append (code.take n) 0 hlater
  rw [← hsplit] at hoff
  rw [hoff, byteAt, Nat.zero_add]

theorem byteAt_of_getElem? (hi : code[n]? = some i) :
    byteAt code (n + 1) = byteAt code n + i.op.size := by
  rw [byteAt_succ, sizeAt, hi]
  rfl

theorem byteAt_mono (code : List Instr) (h : m ≤ n) : byteAt code m ≤ byteAt code n := by
  induction n, h using Nat.le_induction with
  | base => exact Nat.le_refl _
  | succ n _ ih =>
    rw [byteAt_succ]
    exact Nat.le_add_right_of_le ih

theorem byteAt_lt (hi : code[m]? = some i) (h : m < n) : byteAt code m < byteAt code n := by
  have hsize := i.op.size_pos
  have hnext := byteAt_of_getElem? hi
  have hle : byteAt code (m + 1) ≤ byteAt code n := byteAt_mono code h
  omega

theorem displacement?_eq (hn : (code.map Instr.label).Nodup) (hi : code[m]? = some i)
    (hj : code[n]? = some j) (ht : i.op.target? = some j.label) :
    displacement? code i = some ((byteAt code n : Int) - byteAt code (m + 1)) := by
  have hhere := offset?_of_getElem? hn hi
  have hthere := offset?_of_getElem? hn hj
  simp only [displacement?, ht, Option.bind_eq_bind, Option.bind_some, hthere, hhere,
    byteAt_of_getElem? hi]
  rfl

def Slimmer (code' code : List Instr) : Prop := ∀ n, sizeAt code' n ≤ sizeAt code n

theorem Slimmer.byteAt_le (h : Slimmer code' code) (hmn : m ≤ n) :
    byteAt code' n + byteAt code m ≤ byteAt code n + byteAt code' m := by
  induction n, hmn using Nat.le_induction with
  | base => omega
  | succ n _ ih =>
    have hn := h n
    rw [byteAt_succ, byteAt_succ]
    omega

/-- What is in reach of a byte stays so when code gets smaller. -/
theorem Slimmer.fitsByte (h : Slimmer code' code)
    (hfit : fitsByte ((byteAt code n : Int) - byteAt code m) = true) :
    CilSpan.fitsByte ((byteAt code' n : Int) - byteAt code' m) = true := by
  simp only [CilSpan.fitsByte, decide_eq_true_eq] at hfit ⊢
  obtain hmn | hnm := Nat.le_total m n
  · have hle := h.byteAt_le hmn
    have hmono := byteAt_mono code' hmn
    omega
  · have hle := h.byteAt_le hnm
    have hmono := byteAt_mono code' hnm
    omega

theorem sizeAt_set (hi : code[m]? = some i) (j : Instr) (n : Nat) :
    sizeAt (code.set m j) n = if m = n then j.op.size else sizeAt code n := by
  have hm := (List.getElem?_eq_some_iff.1 hi).1
  by_cases hmn : m = n
  · subst hmn
    rw [if_pos rfl, sizeAt, List.getElem?_set_self hm]
    rfl
  · rw [if_neg hmn, sizeAt, List.getElem?_set_ne hmn]
    rfl

theorem byteAt_set_of_le (j : Instr) (h : n ≤ m) : byteAt (code.set m j) n = byteAt code n := by
  rw [byteAt, List.take_set_of_le h]
  rfl

theorem byteAt_set_of_lt (hi : code[m]? = some i) (j : Instr) (h : m < n) :
    byteAt (code.set m j) n + i.op.size = byteAt code n + j.op.size := by
  induction n, Nat.succ_le_of_lt h using Nat.le_induction with
  | base =>
    rw [byteAt_succ, sizeAt_set hi, if_pos rfl, byteAt_set_of_le j (Nat.le_refl m),
      byteAt_of_getElem? hi]
    omega
  | succ n hle ih =>
    have hn := ih hle
    rw [byteAt_succ, byteAt_succ, sizeAt_set hi, if_neg (Nat.ne_of_lt hle)]
    omega

/-- The reach that decides about a long branch is how far it jumps once it alone is short. -/
theorem shortReach_eq (hi : code[m]? = some i) (hlong : i.op.isLong = true) :
    shortReach (byteAt code m) (byteAt code n) =
      byteAt (code.set m i.shorten) n - byteAt (code.set m i.shorten) (m + 1) := by
  obtain ⟨l, op⟩ := i
  obtain ⟨jump, target, rfl⟩ : ∃ jump target, op = .branch jump .long target :=
    Op.isLong_iff.1 hlong
  have hbehind := byteAt_set_of_lt hi (Instr.shorten ⟨l, .branch jump .long target⟩)
    (Nat.lt_add_one m)
  have hlarge := byteAt_of_getElem? hi
  simp only [Instr.shorten, Op.shorten, Op.withWidth, Op.size] at hbehind hlarge ⊢
  by_cases hmn : m < n
  · have hthere := byteAt_set_of_lt hi ⟨l, .branch jump .short target⟩ hmn
    simp only [Op.size] at hthere
    rw [shortReach, if_pos (byteAt_lt hi hmn)]
    omega
  · have hle : n ≤ m := Nat.le_of_not_lt hmn
    have hmono := byteAt_mono code hle
    rw [shortReach, if_neg (Nat.not_lt_of_le hmono), byteAt_set_of_le _ hle]
    omega

end CilSpan
