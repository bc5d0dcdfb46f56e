import CilSpan.Proofs.Layout.Tight

namespace CilSpan

/-- A single long branch is made short, one that reaches its target once it is. -/
inductive Body.Shrinks (b : Body) : Body → Prop
  | pick {n : Nat} {i : Instr} {d : Int} (hi : b.code[n]? = some i) (hlong : i.op.isLong = true)
      (hd : displacement? (b.code.set n i.shorten) i.shorten = some d)
      (hfit : -128 ≤ d ∧ d ≤ 127) : Shrinks b { b with code := b.code.set n i.shorten }

inductive Body.Picks : Nat → Body → Body → Prop
  | zero (b : Body) : Picks 0 b b
  | cons {n : Nat} {b c d : Body} : b.Shrinks c → Picks n c d → Picks (n + 1) b d

structure Narrowed (code code' : List Instr) : Prop where
  length : code'.length = code.length
  each : ∀ (n : Nat) (i : Instr), code[n]? = some i →
    code'[n]? = some i ∨ i.op.isLong = true ∧ code'[n]? = some i.shorten

section

variable {code code' fixed : List Instr} {m : Nat} {i : Instr} {t : Label}

theorem shorten_ne (hlong : i.op.isLong = true) : i.shorten ≠ i := by
  intro h
  have hshort := isLong_shorten i
  rw [h, hlong] at hshort
  cases hshort

theorem exists_target_of_isLong (hlong : i.op.isLong = true) : ∃ t, i.op.target? = some t := by
  obtain ⟨jump, target, hop⟩ := Op.isLong_iff.1 hlong
  exact ⟨target, by rw [hop]; rfl⟩

/-- A pass judges a long branch by how far it would jump if it were made short next. -/
theorem inReach_iff (hn : (code.map Instr.label).Nodup) (hi : code[m]? = some i)
    (hlong : i.op.isLong = true) (ht : i.op.target? = some t) :
    inReach (offsetsFrom 0 code) i.label t = true ↔
      ∃ d, displacement? (code.set m i.shorten) i.shorten = some d ∧ -128 ≤ d ∧ d ≤ 127 := by
  have hlabels := labels_set_shorten hi
  by_cases hmem : t ∈ code.map Instr.label
  · rw [← hlabels] at hmem
    obtain ⟨j, hj, rfl⟩ := List.mem_map.1 hmem
    obtain ⟨n, hj⟩ := List.getElem?_of_mem hj
    obtain ⟨k, hk, hkl⟩ : ∃ k, code[n]? = some k ∧ k.label = j.label := by
      have hold := congrArg (·[n]?) hlabels
      simp only [List.getElem?_map, hj] at hold
      exact Option.map_eq_some_iff.1 hold.symm
    have hset : (code.set m i.shorten)[m]? = some i.shorten :=
      List.getElem?_set_self (List.getElem?_eq_some_iff.1 hi).1
    have hd := displacement?_eq (hlabels.symm ▸ hn) hset hj ((target?_shorten i).trans ht)
    rw [← hkl, inReach_eq hn hi hk hlong, hd]
    simp [fitsByte]
  · have hthere : offset? t (offsetsFrom 0 code) = none := offset?_eq_none hmem
    rw [← hlabels] at hmem
    have hthere' : offset? t (offsetsFrom 0 (code.set m i.shorten)) = none := offset?_eq_none hmem
    simp [inReach, displacement?, hthere, hthere', (target?_shorten i).trans ht]

theorem shrink_eq_self (hfix : shrinkPass fixed = fixed) (hi : fixed[m]? = some i) :
    shrink (offsetsFrom 0 fixed) i = i := by
  obtain ⟨k, hk, hki⟩ := getElem?_shrinkPass_eq_some.1 (hfix.symm ▸ hi)
  obtain rfl : i = k := Option.some_inj.1 (hi.symm.trans hk)
  exact hki

namespace Narrowed

theorem refl (code : List Instr) : Narrowed code code := ⟨rfl, fun _ _ hi ↦ .inl hi⟩

theorem trans (h : Narrowed code code') (h' : Narrowed code' fixed) : Narrowed code fixed := by
  refine ⟨h'.length.trans h.length, fun n i hi ↦ ?_⟩
  obtain hsame | ⟨hlong, hshort⟩ := h.each n i hi
  · exact h'.each n i hsame
  · obtain hsame | ⟨hlong', -⟩ := h'.each n i.shorten hshort
    · exact .inr ⟨hlong, hsame⟩
    · rw [isLong_shorten] at hlong'
      cases hlong'

theorem getElem?_eq_none {n : Nat} (h : Narrowed code code') (hi : code[n]? = none) :
    code'[n]? = none := by
  rw [List.getElem?_eq_none_iff] at hi ⊢
  exact h.length ▸ hi

theorem antisymm (h : Narrowed code code') (h' : Narrowed code' code) : code' = code := by
  refine List.ext_getElem? fun n ↦ ?_
  cases hi : code[n]? with
  | none => exact h.getElem?_eq_none hi
  | some i =>
    obtain hsame | ⟨hlong, hshort⟩ := h.each n i hi
    · exact hsame
    · -- A branch made short would have to become long again.
      obtain hback | ⟨hlong', -⟩ := h'.each n i.shorten hshort
      · exact absurd (Option.some_inj.1 (hback.symm.trans hi)) (shorten_ne hlong)
      · rw [isLong_shorten] at hlong'
        cases hlong'

theorem set (hi : code[m]? = some i) (hlong : i.op.isLong = true) :
    Narrowed code (code.set m i.shorten) := by
  refine ⟨List.length_set, fun n k hk ↦ ?_⟩
  by_cases hmn : m = n
  · subst hmn
    obtain rfl : i = k := Option.some_inj.1 (hi.symm.trans hk)
    exact .inr ⟨hlong, List.getElem?_set_self (List.getElem?_eq_some_iff.1 hi).1⟩
  · exact .inl ((List.getElem?_set_ne hmn).trans hk)

theorem pass (code : List Instr) : Narrowed code (shrinkPass code) := by
  refine ⟨List.length_map _, fun n i hi ↦ ?_⟩
  have hn : (shrinkPass code)[n]? = some (shrink (offsetsFrom 0 code) i) :=
    getElem?_shrinkPass_eq_some.2 ⟨i, hi, rfl⟩
  obtain hsame | ⟨hlong, hshort, -⟩ := shrink_cases (offsetsFrom 0 code) i
  · exact .inl (hsame ▸ hn)
  · exact .inr ⟨hlong, hshort ▸ hn⟩

theorem passes (n : Nat) (code : List Instr) : Narrowed code (shrinkPasses n code) := by
  induction n generalizing code with
  | zero => exact refl code
  | succ n ih =>
    simp only [shrinkPasses]
    split
    · exact refl code
    · exact (pass code).trans (ih _)

theorem labels (h : Narrowed code code') : code'.map Instr.label = code.map Instr.label := by
  refine List.ext_getElem? fun n ↦ ?_
  cases hi : code[n]? with
  | none => simp [hi, h.getElem?_eq_none hi]
  | some i =>
    obtain hsame | ⟨-, hshort⟩ := h.each n i hi
    · simp [hi, hsame]
    · simp [hi, hshort, Instr.shorten]

theorem slimmer (h : Narrowed code code') : Slimmer code' code := by
  intro n
  simp only [sizeAt]
  cases hi : code[n]? with
  | none => simp only [h.getElem?_eq_none hi, Nat.le_refl]
  | some i =>
    obtain hsame | ⟨-, hshort⟩ := h.each n i hi
    · simp only [hsame, Nat.le_refl]
    · rw [hshort]
      exact size_shorten_le i

theorem codeSize_le (h : Narrowed code code') : codeSize code' ≤ codeSize code := by
  have hle : byteAt code' code.length + 0 ≤ byteAt code code.length + 0 :=
    h.slimmer.byteAt_le (Nat.zero_le _)
  have hsize : byteAt code' code.length = codeSize code' := by rw [← h.length, byteAt_length]
  rwa [hsize, byteAt_length] at hle

theorem slimmer_set (h : Narrowed code code') (hi : code[m]? = some i)
    (hi' : code'[m]? = some i) : Slimmer (code'.set m i.shorten) (code.set m i.shorten) := by
  intro n
  rw [sizeAt_set hi, sizeAt_set hi']
  split
  · exact Nat.le_refl _
  · exact h.slimmer n

/-- A long branch in reach stays in reach, whatever else has been made short. -/
theorem inReach (h : Narrowed code code') (hn : (code.map Instr.label).Nodup)
    (hi : code[m]? = some i) (hi' : code'[m]? = some i) (hlong : i.op.isLong = true)
    (hreach : inReach (offsetsFrom 0 code) i.label t = true) :
    CilSpan.inReach (offsetsFrom 0 code') i.label t = true := by
  have hlabels := h.labels
  by_cases hmem : t ∈ code.map Instr.label
  · obtain ⟨j, hj, rfl⟩ := List.mem_map.1 hmem
    obtain ⟨n, hj⟩ := List.getElem?_of_mem hj
    obtain ⟨k, hk, hkl⟩ : ∃ k, code'[n]? = some k ∧ k.label = j.label := by
      have hold := congrArg (·[n]?) hlabels
      simp only [List.getElem?_map, hj] at hold
      exact Option.map_eq_some_iff.1 hold
    rw [inReach_eq hn hi hj hlong] at hreach
    rw [← hkl, inReach_eq (hlabels.symm ▸ hn) hi' hk hlong]
    exact (h.slimmer_set hi hi').fitsByte hreach
  · rw [CilSpan.inReach, offset?_eq_none hmem] at hreach
    cases hreach

/-- What can be made short has been, wherever nothing is left to be made short. -/
theorem short_of_fixed (h : Narrowed code fixed) (hfix : shrinkPass fixed = fixed)
    (hn : (code.map Instr.label).Nodup) (hi : code[m]? = some i) (hlong : i.op.isLong = true)
    (ht : i.op.target? = some t) (hreach : CilSpan.inReach (offsetsFrom 0 code) i.label t = true) :
    fixed[m]? = some i.shorten := by
  obtain hsame | ⟨-, hshort⟩ := h.each m i hi
  · have hstill := h.inReach hn hi hsame hlong hreach
    have hself := shrink_eq_self hfix hsame
    rw [shrink_of_inReach hlong ht hstill] at hself
    exact absurd hself (shorten_ne hlong)
  · exact hshort

theorem of_pick (h : Narrowed code fixed) (hfix : shrinkPass fixed = fixed)
    (hn : (code.map Instr.label).Nodup) (hi : code[m]? = some i) (hlong : i.op.isLong = true)
    (ht : i.op.target? = some t) (hreach : CilSpan.inReach (offsetsFrom 0 code) i.label t = true) :
    Narrowed (code.set m i.shorten) fixed := by
  refine ⟨h.length.trans List.length_set.symm, fun n k hk ↦ ?_⟩
  by_cases hmn : m = n
  · subst hmn
    rw [List.getElem?_set_self (List.getElem?_eq_some_iff.1 hi).1] at hk
    injection hk with hk
    exact .inl (hk ▸ h.short_of_fixed hfix hn hi hlong ht hreach)
  · exact h.each n k ((List.getElem?_set_ne hmn).symm.trans hk)

theorem of_pass (h : Narrowed code fixed) (hfix : shrinkPass fixed = fixed)
    (hn : (code.map Instr.label).Nodup) : Narrowed (shrinkPass code) fixed := by
  refine ⟨h.length.trans (List.length_map _).symm, fun n k hk ↦ ?_⟩
  obtain ⟨i, hi, rfl⟩ := getElem?_shrinkPass_eq_some.1 hk
  obtain hsame | ⟨hlong, hshort, hreach⟩ := shrink_cases (offsetsFrom 0 code) i
  · rw [hsame]
    exact h.each n i hi
  · obtain ⟨t, ht⟩ := exists_target_of_isLong hlong
    rw [hshort]
    exact .inl (h.short_of_fixed hfix hn hi hlong ht (hreach t ht))

theorem of_passes (h : Narrowed code fixed) (hfix : shrinkPass fixed = fixed)
    (hn : (code.map Instr.label).Nodup) (n : Nat) : Narrowed (shrinkPasses n code) fixed := by
  induction n generalizing code with
  | zero => exact h
  | succ n ih =>
    simp only [shrinkPasses]
    split
    · exact h
    · exact ih (h.of_pass hfix hn) ((labels_shrinkPass code).symm ▸ hn)

end Narrowed

end

namespace Body

variable {b c : Body} {fixed : List Instr} {n : Nat}

/-- Nothing is left to be made short exactly when a pass changes nothing. -/
theorem shrinkPass_eq_self_iff (hn : b.labels.Nodup) :
    shrinkPass b.code = b.code ↔ ∀ c, ¬b.Shrinks c := by
  constructor
  · rintro hfix c ⟨hi, hlong, hd, hfit⟩
    obtain ⟨t, ht⟩ := exists_target_of_isLong hlong
    have hreach := (inReach_iff hn hi hlong ht).2 ⟨_, hd, hfit⟩
    have hself := shrink_eq_self hfix hi
    rw [shrink_of_inReach hlong ht hreach] at hself
    exact shorten_ne hlong hself
  · intro hnone
    refine (List.map_congr_left fun i hi ↦ ?_).trans (List.map_id b.code)
    obtain hsame | ⟨hlong, -, hreach⟩ := shrink_cases (offsetsFrom 0 b.code) i
    · exact hsame
    · obtain ⟨m, hm⟩ := List.getElem?_of_mem hi
      obtain ⟨t, ht⟩ := exists_target_of_isLong hlong
      obtain ⟨d, hd, hfit⟩ := (inReach_iff hn hm hlong ht).1 (hreach t ht)
      exact absurd (.pick hm hlong hd hfit) (hnone _)

namespace Shrinks

theorem narrowed (h : b.Shrinks c) : Narrowed b.code c.code := by
  obtain ⟨hi, hlong, -, -⟩ := h
  exact .set hi hlong

theorem labels_eq (h : b.Shrinks c) : c.labels = b.labels := h.narrowed.labels

theorem narrowed_fixed (h : b.Shrinks c) (hn : b.labels.Nodup) (hfix : shrinkPass fixed = fixed)
    (hb : Narrowed b.code fixed) : Narrowed c.code fixed := by
  obtain ⟨hi, hlong, hd, hfit⟩ := h
  obtain ⟨t, ht⟩ := exists_target_of_isLong hlong
  exact hb.of_pick hfix hn hi hlong ht ((inReach_iff hn hi hlong ht).2 ⟨_, hd, hfit⟩)

theorem longCount_lt (h : b.Shrinks c) : longCount c.code < longCount b.code := by
  obtain ⟨hi, hlong, -, -⟩ := h
  obtain ⟨hlt, rfl⟩ := List.getElem?_eq_some_iff.1 hi
  have hpos : 0 < longCount b.code :=
    List.countP_pos_iff.2 ⟨_, List.getElem_mem hlt, hlong⟩
  simp only [longCount] at hpos ⊢
  rw [List.countP_set hlt, hlong, isLong_shorten]
  simp only [if_true, Bool.false_eq_true, if_false]
  omega

end Shrinks

namespace Picks

theorem frame (h : b.Picks n c) : c = { b with code := c.code } := by
  induction h with
  | zero => rfl
  | cons hpick _ ih =>
    obtain ⟨_, _, _, _⟩ := hpick
    exact ih

theorem narrowed (h : b.Picks n c) : Narrowed b.code c.code := by
  induction h with
  | zero b => exact .refl b.code
  | cons hpick _ ih => exact hpick.narrowed.trans ih

theorem narrowed_fixed (h : b.Picks n c) (hn : b.labels.Nodup) (hfix : shrinkPass fixed = fixed)
    (hb : Narrowed b.code fixed) : Narrowed c.code fixed := by
  induction h with
  | zero => exact hb
  | cons hpick _ ih =>
    exact ih (hpick.labels_eq.symm ▸ hn) (hpick.narrowed_fixed hn hfix hb)

theorem longCount_add_le (h : b.Picks n c) : longCount c.code + n ≤ longCount b.code := by
  induction h with
  | zero => exact Nat.le_refl _
  | cons hpick _ ih =>
    have hlt := hpick.longCount_lt
    omega

end Picks

/-- Whatever is picked, in the end nothing is left. -/
theorem exists_picks (b : Body) : ∃ n c, b.Picks n c ∧ ∀ d, ¬c.Shrinks d := by
  induction hk : longCount b.code using Nat.strongRecOn generalizing b with
  | ind k ih =>
    by_cases hstuck : ∀ d, ¬b.Shrinks d
    · exact ⟨0, b, .zero b, hstuck⟩
    · obtain ⟨c, hc⟩ := Classical.not_forall_not.1 hstuck
      obtain ⟨n, d, hd, hend⟩ := ih _ (hk ▸ hc.longCount_lt) c rfl
      exact ⟨n + 1, d, .cons hc hd, hend⟩

end Body

/-- Picking one branch after the other comes to an end in any order, and always in what shortening
branches pass by pass ends in. -/
theorem picks_end_in_shorten (b : Body) (hn : b.labels.Nodup) :
    (∀ n c, b.Picks n c → n ≤ longCount b.code) ∧
      ∀ c, ((∃ n, b.Picks n c) ∧ ∀ d, ¬c.Shrinks d) ↔ c = b.shorten := by
  have hfix : shrinkPass b.shorten.code = b.shorten.code :=
    shrinkPass_shrinkPasses (Nat.le_refl _)
  have hend : ∀ n c, b.Picks n c → (∀ d, ¬c.Shrinks d) → c = b.shorten := by
    intro n c hc hstuck
    have hlabels : c.labels = b.labels := hc.narrowed.labels
    have hstuck := (Body.shrinkPass_eq_self_iff (hlabels.symm ▸ hn)).2 hstuck
    -- Each of the two ends is stuck, so each takes in whatever leads to the other.
    have hforth := hc.narrowed_fixed hn hfix (.passes _ b.code)
    have hback := hc.narrowed.of_passes hstuck hn (longCount b.code)
    rw [hc.frame, hback.antisymm hforth]
    rfl
  refine ⟨fun n c hc ↦ ?_, fun c ↦ ⟨?_, ?_⟩⟩
  · have hle := hc.longCount_add_le
    omega
  · rintro ⟨⟨n, hc⟩, hstuck⟩
    exact hend n c hc hstuck
  · rintro rfl
    obtain ⟨n, c, hc, hstuck⟩ := b.exists_picks
    exact hend n c hc hstuck ▸ ⟨⟨n, hc⟩, hstuck⟩

/-- The first branch comes into reach only when both of the next two, which go back, are short. The
one that follows them goes nowhere. -/
def threeBack : Body where
  code := [⟨⟨0⟩, .branch .always .long ⟨28⟩⟩, ⟨⟨1⟩, .branch .ifTrue .long ⟨0⟩⟩,
    ⟨⟨2⟩, .branch .ifFalse .long ⟨1⟩⟩, ⟨⟨3⟩, .branch .leave .long ⟨99⟩⟩] ++
    (List.range 23).map (fun k ↦ ⟨⟨.ofNat (k + 4)⟩, .ldstr "x"⟩) ++
    [⟨⟨27⟩, .branch .always .short ⟨28⟩⟩, ⟨⟨28⟩, .ret⟩]
  locals := []
  regions := []
  initLocals := false
  next := 29

theorem picks_end_in_shorten_threeBack :
    let b := threeBack
    b.labels.Nodup ∧ (∀ n c, b.Picks n c → n ≤ 4) ∧
      (∀ c, ((∃ n, b.Picks n c) ∧ ∀ d, ¬c.Shrinks d) ↔ c = b.shorten) ∧
      b.shorten.code.filterMap (fun i ↦ i.op.target?.map fun t ↦ (i.op.isShort, t)) =
        [(true, ⟨28⟩), (true, ⟨0⟩), (true, ⟨1⟩), (false, ⟨99⟩), (true, ⟨28⟩)] := by
  intro b
  have hn : b.labels.Nodup := by decide +kernel
  have hwidths : b.shorten.code.filterMap (fun i ↦ i.op.target?.map fun t ↦ (i.op.isShort, t)) =
      [(true, ⟨28⟩), (true, ⟨0⟩), (true, ⟨1⟩), (false, ⟨99⟩), (true, ⟨28⟩)] := by
    decide +kernel
  obtain ⟨hcount, hend⟩ := picks_end_in_shorten b hn
  exact ⟨hn, hcount, hend, hwidths⟩

end CilSpan
