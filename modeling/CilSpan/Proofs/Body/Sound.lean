import CilSpan.Body.Basic

namespace CilSpan

namespace Body

variable {b : Body} {l : Label} {n : Nat} {i : Instr}

theorem exists_of_position? (h : b.position? l = some n) :
    ∃ i, b.code[n]? = some i ∧ i.label = l := by
  obtain ⟨hn, hl, -⟩ := List.findIdx?_eq_some_iff_getElem.1 h
  exact ⟨b.code[n], List.getElem?_eq_getElem hn, by simpa using hl⟩

theorem position?_lt (h : b.position? l = some n) : n < b.size := by
  obtain ⟨i, hi, -⟩ := exists_of_position? h
  exact (List.getElem?_eq_some_iff.1 hi).1

theorem position?_of_getElem? (hb : b.labels.Nodup) (h : b.code[n]? = some i) :
    b.position? i.label = some n := by
  obtain ⟨hn, rfl⟩ := List.getElem?_eq_some_iff.1 h
  refine List.findIdx?_eq_some_iff_getElem.2 ⟨hn, by simp, fun j hj ↦ ?_⟩
  have hne := List.pairwise_iff_getElem.1 hb j n (by simp [labels]; omega) (by simpa [labels]) hj
  simpa [labels] using hne

theorem find?_of_getElem? (hb : b.labels.Nodup) (h : b.code[n]? = some i) :
    b.find? i.label = some i := by
  have hpos := position?_of_getElem? hb h
  obtain ⟨hlt, rfl⟩ := List.getElem?_eq_some_iff.1 h
  obtain ⟨_, _, hbefore⟩ := List.findIdx?_eq_some_iff_getElem.1 hpos
  exact List.find?_eq_some_iff_getElem.2 ⟨by simp, n, hlt, rfl, by simpa using hbefore⟩

theorem mem_labels_iff : l ∈ b.labels ↔ ∃ n, b.position? l = some n := by
  constructor
  · intro h
    obtain ⟨i, hi, rfl⟩ := List.mem_map.1 h
    refine Option.isSome_iff_exists.1 ?_
    simpa [position?] using ⟨i, hi, rfl⟩
  · rintro ⟨n, hn⟩
    obtain ⟨i, hi, rfl⟩ := exists_of_position? hn
    exact List.mem_map_of_mem (List.mem_of_getElem? hi)

/-- Labels stand in the body, none before the one in front of it. -/
def Ascending (b : Body) (least : Nat) : List Label → Prop
  | [] => True
  | l :: ls => ∃ n, b.position? l = some n ∧ least ≤ n ∧ b.Ascending n ls

theorem ascending_iff {least : Nat} {ls : List Label} : b.Ascending least ls ↔ (∀ l ∈ ls, l ∈ b.labels) ∧
    (∀ n ∈ ls.filterMap b.position?, least ≤ n) ∧ (ls.filterMap b.position?).Pairwise (· ≤ ·) := by
  induction ls generalizing least with
  | nil => simp [Ascending]
  | cons l ls ih =>
    cases h : b.position? l with
    | none =>
      have hl : l ∉ b.labels := fun hl ↦ by
        obtain ⟨n, hn⟩ := mem_labels_iff.1 hl
        rw [h] at hn
        cases hn
      simp [Ascending, h, hl]
    | some n =>
      have hl : l ∈ b.labels := mem_labels_iff.2 ⟨n, h⟩
      simp only [Ascending, h, ih, List.forall_mem_cons, List.filterMap_cons_some h, hl, true_and,
        List.pairwise_cons, Option.some.injEq, exists_eq_left']
      constructor
      · rintro ⟨hle, hls, hn, hpair⟩
        exact ⟨hls, ⟨hle, fun k hk ↦ Nat.le_trans hle (hn k hk)⟩, hn, hpair⟩
      · rintro ⟨hls, ⟨hle, -⟩, hn, hpair⟩
        exact ⟨hle, hls, hn, hpair⟩

theorem boundaryFlaw?_eq_none {index least : Nat} {ls : List Label} :
    b.boundaryFlaw? index least ls = none ↔ b.Ascending least ls := by
  induction ls generalizing least with
  | nil => simp [boundaryFlaw?, Ascending]
  | cons l ls ih =>
    cases h : b.position? l with
    | none => simp [boundaryFlaw?, Ascending, h]
    | some n =>
      by_cases hn : n < least
      · have hnle : ¬least ≤ n := Nat.not_le_of_lt hn
        simp [boundaryFlaw?, Ascending, h, hn, hnle]
      · have hle : least ≤ n := Nat.le_of_not_lt hn
        simp [boundaryFlaw?, Ascending, h, hn, hle, ih]

theorem instrFlaw?_eq_none : b.instrFlaw? i = none ↔
    (∀ t, i.op.target? = some t → t ∈ b.labels) ∧
      ∀ k, i.op.slot? = some k → k.toNat < b.locals.length := by
  cases h : i.op <;> simp [instrFlaw?, h, Op.target?, Op.slot?]

structure Sound (b : Body) : Prop where
  nodup : b.labels.Nodup
  target : ∀ i ∈ b.code, ∀ t, i.op.target? = some t → t ∈ b.labels
  slot : ∀ i ∈ b.code, ∀ k, i.op.slot? = some k → k.toNat < b.locals.length
  region : ∀ r ∈ b.regions, b.Ascending 0 r.boundaries

theorem Sound.tryStart_le (h : b.Sound) {r : Region} (hr : r ∈ b.regions) {m n : Nat} {i j : Instr}
    (hi : b.code[m]? = some i) (hstart : i.label = r.tryStart) (hj : b.code[n]? = some j)
    (hstop : j.label = r.tryEnd) : m ≤ n := by
  obtain ⟨m', hm, -, n', hn, hle, -⟩ := h.region r hr
  rw [← hstart, position?_of_getElem? h.nodup hi] at hm
  rw [← hstop, position?_of_getElem? h.nodup hj] at hn
  injection hm with hm
  injection hn with hn
  omega

theorem flaw?_eq_none : b.flaw? = none ↔ b.Sound := by
  have hr : (b.regions.zipIdx.findSome? fun x ↦ b.regionFlaw? x.2 x.1) = none ↔
      ∀ r ∈ b.regions, b.Ascending 0 r.boundaries := by
    simp only [List.findSome?_eq_none_iff, Prod.forall, regionFlaw?, boundaryFlaw?_eq_none]
    constructor
    · intro h r hr
      obtain ⟨k, hk⟩ := List.getElem?_of_mem hr
      exact h r k (List.mk_mem_zipIdx_iff_getElem?.2 hk)
    · intro h r k hk
      exact h r (List.fst_mem_of_mem_zipIdx hk)
  unfold flaw?
  cases hf : firstRepeat [] b.labels with
  | some l =>
    constructor
    · intro h
      cases h
    · intro h
      rw [firstRepeat_eq_none.2 ⟨h.nodup, by simp⟩] at hf
      cases hf
  | none =>
    have hnd := (firstRepeat_eq_none.1 hf).1
    cases hi : b.code.findSome? b.instrFlaw? with
    | some flaw =>
      constructor
      · intro h
        cases h
      · intro h
        obtain ⟨i, hi, e⟩ := List.exists_of_findSome?_eq_some hi
        rw [instrFlaw?_eq_none.2 ⟨h.target i hi, h.slot i hi⟩] at e
        cases e
    | none =>
      have hi := fun i h ↦ instrFlaw?_eq_none.1 (List.findSome?_eq_none_iff.1 hi i h)
      exact hr.trans ⟨fun h ↦ ⟨hnd, fun i hm ↦ (hi i hm).1, fun i hm ↦ (hi i hm).2, h⟩,
        Sound.region⟩

end Body

end CilSpan
