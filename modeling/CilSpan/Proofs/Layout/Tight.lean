import CilSpan.Proofs.Layout.Offsets
import CilSpan.Proofs.Machine.Width

namespace CilSpan

/-- Every branch is as short as it can be, and no shorter. -/
structure Tight (code : List Instr) : Prop where
  short : ∀ i ∈ code, i.op.isShort = true →
    ∃ d, displacement? code i = some d ∧ -128 ≤ d ∧ d ≤ 127
  long : ∀ n i, code[n]? = some i → i.op.isLong = true →
    ∃ d d', displacement? code i = some d ∧
      displacement? (code.set n i.shorten) i.shorten = some d' ∧
      ¬(-128 ≤ d ∧ d ≤ 127) ∧ ¬(-128 ≤ d' ∧ d' ≤ 127)

def Reaching (code : List Instr) : Prop :=
  ∀ m n i j, code[m]? = some i → code[n]? = some j → i.op.isShort = true →
    i.op.target? = some j.label →
    fitsByte ((byteAt code n : Int) - byteAt code (m + 1)) = true

section

variable {code : List Instr} {table : List (Label × Nat)} {m n : Nat} {i j : Instr}

theorem shrink_cases (table : List (Label × Nat)) (i : Instr) : shrink table i = i ∨
    i.op.isLong = true ∧ shrink table i = i.shorten ∧
      ∀ t, i.op.target? = some t → inReach table i.label t = true := by
  obtain ⟨l, op⟩ := i
  unfold shrink
  split
  · rename_i jump target hop
    dsimp only at hop
    subst hop
    split
    · rename_i hreach
      refine .inr ⟨rfl, rfl, fun t ht ↦ ?_⟩
      injection ht with ht
      exact ht ▸ hreach
    · exact .inl rfl
  · exact .inl rfl

theorem shrink_of_inReach {l : Label} (hlong : i.op.isLong = true) (ht : i.op.target? = some l)
    (hreach : inReach table i.label l = true) : shrink table i = i.shorten := by
  obtain ⟨k, op⟩ := i
  obtain ⟨jump, target, rfl⟩ := Op.isLong_iff.1 hlong
  injection ht with ht
  subst ht
  simp only [shrink, hreach, if_true]
  rfl

theorem isLong_shorten (i : Instr) : i.shorten.op.isLong = false := by
  obtain ⟨l, op⟩ := i
  cases op <;> rfl

theorem target?_shorten (i : Instr) : i.shorten.op.target? = i.op.target? := by
  obtain ⟨l, op⟩ := i
  cases op <;> rfl

theorem size_shorten_le (i : Instr) : i.shorten.op.size ≤ i.op.size := by
  obtain ⟨l, op⟩ := i
  cases op with
  | branch jump width target =>
    cases width with
    | short => exact Nat.le_refl _
    | long => exact (by decide : 2 ≤ 5)
  | _ => exact Nat.le_refl _

theorem target?_shrink (table : List (Label × Nat)) (i : Instr) :
    (shrink table i).op.target? = i.op.target? := by
  obtain h | ⟨-, h, -⟩ := shrink_cases table i
  · rw [h]
  · rw [h, target?_shorten]

theorem size_shrink_le (table : List (Label × Nat)) (i : Instr) :
    (shrink table i).op.size ≤ i.op.size := by
  obtain h | ⟨-, h, -⟩ := shrink_cases table i
  · exact h.symm ▸ Nat.le_refl _
  · exact h.symm ▸ size_shorten_le i

theorem getElem?_shrinkPass_eq_some : (shrinkPass code)[n]? = some i ↔
    ∃ k, code[n]? = some k ∧ shrink (offsetsFrom 0 code) k = i := by
  simp only [shrinkPass, List.getElem?_map, Option.map_eq_some_iff]

theorem labels_shrinkPass (code : List Instr) :
    (shrinkPass code).map Instr.label = code.map Instr.label := by
  rw [shrinkPass, List.map_map]
  exact List.map_congr_left fun i _ ↦ label_shrink _ i

theorem slimmer_shrinkPass (code : List Instr) : Slimmer (shrinkPass code) code := by
  intro n
  simp only [sizeAt, shrinkPass, List.getElem?_map]
  cases code[n]? with
  | none => exact Nat.le_refl _
  | some i => exact size_shrink_le _ i

theorem slimmer_set (hi : code[m]? = some i) : Slimmer (code.set m i.shorten) code := by
  intro n
  rw [sizeAt_set hi]
  split
  · rename_i hmn
    simp only [sizeAt, ← hmn, hi]
    exact size_shorten_le i
  · exact Nat.le_refl _

/-- A pass that shortens a branch leaves no more bytes than shortening it alone. -/
theorem slimmer_shrinkPass_set (hi : code[m]? = some i)
    (hshort : shrink (offsetsFrom 0 code) i = i.shorten) :
    Slimmer (shrinkPass code) (code.set m i.shorten) := by
  intro n
  rw [sizeAt_set hi]
  split
  · rename_i hmn
    simp only [sizeAt, ← hmn, getElem?_shrinkPass_eq_some.2 ⟨i, hi, hshort⟩]
    exact Nat.le_refl _
  · exact slimmer_shrinkPass code n

theorem inReach_eq (hn : (code.map Instr.label).Nodup) (hi : code[m]? = some i)
    (hj : code[n]? = some j) (hlong : i.op.isLong = true) :
    inReach (offsetsFrom 0 code) i.label j.label =
      fitsByte (byteAt (code.set m i.shorten) n - byteAt (code.set m i.shorten) (m + 1)) := by
  simp only [inReach, offset?_of_getElem? hn hi, offset?_of_getElem? hn hj, shortReach_eq hi hlong]

/-- What a pass decides by the offsets before it still holds by those after it. -/
theorem reaching_shrinkPass (hn : (code.map Instr.label).Nodup) (h : Reaching code) :
    Reaching (shrinkPass code) := by
  intro m n i j hi hj hs ht
  obtain ⟨i, hi', rfl⟩ := getElem?_shrinkPass_eq_some.1 hi
  obtain ⟨j, hj', rfl⟩ := getElem?_shrinkPass_eq_some.1 hj
  rw [target?_shrink, label_shrink] at ht
  obtain hkept | ⟨hlong, hshort, hreach⟩ := shrink_cases (offsetsFrom 0 code) i
  · rw [hkept] at hs
    exact (slimmer_shrinkPass code).fitsByte (h m n i j hi' hj' hs ht)
  · have hfit := hreach j.label ht
    rw [inReach_eq hn hi' hj' hlong] at hfit
    exact (slimmer_shrinkPass_set hi' hshort).fitsByte hfit

theorem reaching_shrinkPasses (hn : (code.map Instr.label).Nodup) (h : Reaching code) (n : Nat) :
    Reaching (shrinkPasses n code) := by
  induction n generalizing code with
  | zero => exact h
  | succ n ih =>
    simp only [shrinkPasses]
    split
    · exact h
    · exact ih ((labels_shrinkPass code).symm ▸ hn) (reaching_shrinkPass hn h)

/-- A long branch that a pass leaves long is out of reach, whether it is laid out long or short. -/
theorem out_of_reach (hn : (code.map Instr.label).Nodup) (hfix : shrinkPass code = code)
    (hi : code[m]? = some i) (hj : code[n]? = some j) (hlong : i.op.isLong = true)
    (ht : i.op.target? = some j.label) :
    fitsByte ((byteAt code n : Int) - byteAt code (m + 1)) = false ∧
      fitsByte ((byteAt (code.set m i.shorten) n : Int) -
        byteAt (code.set m i.shorten) (m + 1)) = false := by
  have halone : fitsByte ((byteAt (code.set m i.shorten) n : Int) -
      byteAt (code.set m i.shorten) (m + 1)) = false := by
    rw [← inReach_eq hn hi hj hlong, ← Bool.not_eq_true]
    intro hreach
    have hkept : shrink (offsetsFrom 0 code) i = i := by
      obtain ⟨k, hk, hki⟩ := getElem?_shrinkPass_eq_some.1 (hfix.symm ▸ hi)
      obtain rfl : i = k := Option.some_inj.1 (hi.symm.trans hk)
      exact hki
    have hshort := isLong_shorten i
    rw [← shrink_of_inReach hlong ht hreach, hkept, hlong] at hshort
    cases hshort
  refine ⟨?_, halone⟩
  rw [← Bool.not_eq_true] at halone ⊢
  exact fun hfit ↦ halone ((slimmer_set hi).fitsByte hfit)

theorem labels_set_shorten (hi : code[m]? = some i) :
    (code.set m i.shorten).map Instr.label = code.map Instr.label := by
  obtain ⟨hlt, rfl⟩ := List.getElem?_eq_some_iff.1 hi
  rw [List.map_set]
  have hlt' : m < (code.map Instr.label).length := by simpa using hlt
  have hsame : code[m].shorten.label = (code.map Instr.label)[m] := by simp [Instr.shorten]
  rw [hsame, List.set_getElem_self]

/-- Code whose branches all go somewhere is tight once no pass changes it any more. -/
theorem tight_of_fixed (hn : (code.map Instr.label).Nodup)
    (htarget : ∀ i ∈ code, ∀ t, i.op.target? = some t → t ∈ code.map Instr.label)
    (hreach : Reaching code) (hfix : shrinkPass code = code) : Tight code := by
  have hthere : ∀ i ∈ code, ∀ t, i.op.target? = some t →
      ∃ (n : Nat) (j : Instr), code[n]? = some j ∧ i.op.target? = some j.label := by
    intro i hi t ht
    obtain ⟨j, hj, rfl⟩ := List.mem_map.1 (htarget i hi t ht)
    obtain ⟨n, hn⟩ := List.getElem?_of_mem hj
    exact ⟨n, j, hn, ht⟩
  constructor
  · intro i hi hs
    obtain ⟨m, hm⟩ := List.getElem?_of_mem hi
    obtain ⟨t, ht⟩ : ∃ t, i.op.target? = some t := by
      obtain ⟨l, op⟩ := i
      cases op <;> first | exact ⟨_, rfl⟩ | cases hs
    obtain ⟨n, j, hj, ht⟩ := hthere i hi t ht
    have hfit := hreach m n i j hm hj hs ht
    simp only [fitsByte, decide_eq_true_eq] at hfit
    exact ⟨_, displacement?_eq hn hm hj ht, hfit⟩
  · intro m i hm hlong
    obtain ⟨jump, target, hop⟩ := Op.isLong_iff.1 hlong
    obtain ⟨n, j, hj, ht⟩ := hthere i (List.mem_of_getElem? hm) target (by rw [hop]; rfl)
    obtain ⟨hlaid, halone⟩ := out_of_reach hn hfix hm hj hlong ht
    simp only [fitsByte, decide_eq_false_iff_not] at hlaid halone
    have hlt := (List.getElem?_eq_some_iff.1 hm).1
    have hm' : (code.set m i.shorten)[m]? = some i.shorten := List.getElem?_set_self hlt
    obtain ⟨j', hj', hl⟩ : ∃ j', (code.set m i.shorten)[n]? = some j' ∧ j'.label = j.label := by
      by_cases hmn : m = n
      · subst hmn
        obtain rfl : i = j := Option.some_inj.1 (hm.symm.trans hj)
        exact ⟨i.shorten, hm', rfl⟩
      · exact ⟨j, (List.getElem?_set_ne hmn).trans hj, rfl⟩
    have hn' := (labels_set_shorten hm).symm ▸ hn
    refine ⟨_, _, displacement?_eq hn hm hj ht, displacement?_eq hn' hm' hj' ?_, hlaid, halone⟩
    rw [target?_shorten, ht, hl]

end

theorem map_eq_or_countP_lt {α : Type} {f : α → α} {p : α → Bool}
    (hf : ∀ x, f x = x ∨ p x = true ∧ p (f x) = false) (xs : List α) :
    xs.map f = xs ∨ (xs.map f).countP p < xs.countP p := by
  induction xs with
  | nil => exact .inl rfl
  | cons x xs ih =>
    have hle : (xs.map f).countP p ≤ xs.countP p := by
      obtain h | h := ih
      · exact h.symm ▸ Nat.le_refl _
      · exact Nat.le_of_lt h
    simp only [List.map_cons, List.cons.injEq, List.countP_cons]
    obtain hx | ⟨hx, hfx⟩ := hf x
    · rw [hx]
      exact ih.imp (fun h ↦ ⟨rfl, h⟩) (fun h ↦ Nat.add_lt_add_right h _)
    · rw [hx, hfx]
      exact .inr (Nat.lt_succ_of_le hle)

theorem longCount_shrinkPass_lt {code : List Instr} (h : shrinkPass code ≠ code) :
    longCount (shrinkPass code) < longCount code := by
  refine (map_eq_or_countP_lt (fun i ↦ ?_) code).resolve_left h
  obtain hi | ⟨hlong, hshort, -⟩ := shrink_cases (offsetsFrom 0 code) i
  · exact .inl hi
  · exact .inr ⟨hlong, hshort ▸ isLong_shorten i⟩

theorem shrinkPass_shrinkPasses {code : List Instr} {n : Nat} (h : longCount code ≤ n) :
    shrinkPass (shrinkPasses n code) = shrinkPasses n code := by
  induction n generalizing code with
  | zero =>
    refine Decidable.byContradiction fun hne ↦ ?_
    exact Nat.not_lt_zero _ (Nat.lt_of_lt_of_le (longCount_shrinkPass_lt hne) h)
  | succ n ih =>
    simp only [shrinkPasses]
    split
    · assumption
    · rename_i hne
      exact ih (Nat.le_of_lt_succ (Nat.lt_of_lt_of_le (longCount_shrinkPass_lt hne) h))

theorem shrinkPasses_of_fixed {code : List Instr} (h : shrinkPass code = code) (n : Nat) :
    shrinkPasses n code = code := by
  cases n with
  | zero => rfl
  | succ n => simp only [shrinkPasses, h, if_true]

/-- Beyond what is enough it makes no difference how many passes there may be. -/
theorem shrinkPasses_eq_of_le {code : List Instr} {m n : Nat} (hm : longCount code ≤ m)
    (hn : longCount code ≤ n) : shrinkPasses m code = shrinkPasses n code := by
  induction m generalizing code n with
  | zero =>
    have hfix := shrinkPass_shrinkPasses hm
    rw [shrinkPasses] at hfix
    rw [shrinkPasses_of_fixed hfix, shrinkPasses_of_fixed hfix]
  | succ m ih =>
    by_cases hfix : shrinkPass code = code
    · rw [shrinkPasses_of_fixed hfix, shrinkPasses_of_fixed hfix]
    · have hlt := longCount_shrinkPass_lt hfix
      obtain ⟨n, rfl⟩ := Nat.exists_eq_add_of_le' (show 1 ≤ n by omega)
      simp only [shrinkPasses, if_neg hfix]
      exact ih (by omega) (by omega)

namespace Body

def Long (b : Body) : Prop := ∀ i ∈ b.code, i.op.isShort = false

variable {b : Body}

theorem shorten_shorten (b : Body) : b.shorten.shorten = b.shorten := by
  have hfix := shrinkPass_shrinkPasses (Nat.le_refl (longCount b.code))
  simp only [shorten, shrinkPasses_of_fixed hfix]

theorem labels_shorten (b : Body) : b.shorten.labels = b.labels :=
  labels_shrinkPasses _ _

theorem long_lengthen (b : Body) : b.lengthen.Long := by
  intro i hi
  obtain ⟨⟨l, op⟩, -, rfl⟩ := List.mem_map.1 hi
  cases op <;> rfl

theorem Long.lengthen_eq (h : b.Long) : b.lengthen = b := by
  have hself : ∀ i ∈ b.code, { i with op := i.op.lengthen } = i := by
    rintro ⟨l, op⟩ hi
    have hop := h _ hi
    cases op with
    | branch jump width target =>
      cases width with
      | short => cases hop
      | long => rfl
    | _ => rfl
  rw [lengthen, List.map_congr_left hself, List.map_id']

theorem mem_targets_iff {t : Label} : t ∈ b.targets ↔ ∃ i ∈ b.code, i.op.target? = some t :=
  List.mem_filterMap

theorem targets_lengthen (b : Body) : b.lengthen.targets = b.targets := by
  simp only [targets, lengthen, List.filterMap_map, Function.comp_def, Op.target?_lengthen]

theorem targets_shorten (b : Body) : b.shorten.targets = b.targets := by
  rw [← targets_lengthen, lengthen_shorten, targets_lengthen]

/-- A body without short branches becomes tight when its branches are shortened. -/
theorem Long.tight_shorten (h : b.Long) (hn : b.labels.Nodup) (ht : ∀ t ∈ b.targets, t ∈ b.labels) :
    Tight b.shorten.code := by
  have hstart : Reaching b.code := by
    intro m n i j hi hj hs
    rw [h i (List.mem_of_getElem? hi)] at hs
    cases hs
  refine tight_of_fixed (b.labels_shorten.symm ▸ hn : b.shorten.labels.Nodup) ?_
    (reaching_shrinkPasses hn hstart _) (shrinkPass_shrinkPasses (Nat.le_refl _))
  intro i hi t hit
  have hmem : t ∈ b.shorten.targets := mem_targets_iff.2 ⟨i, hi, hit⟩
  have hlabel : t ∈ b.shorten.labels := b.labels_shorten.symm ▸ ht t (b.targets_shorten ▸ hmem)
  exact hlabel

end Body

end CilSpan
