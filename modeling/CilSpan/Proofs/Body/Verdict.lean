import CilSpan.Proofs.Body.Intact

namespace CilSpan

theorem exists_split_cons {α : Type} {a : α} {as : List α} {P : List α → α → Prop} :
    (∃ before x after, a :: as = before ++ x :: after ∧ P before x) ↔
      P [] a ∨ ∃ before x after, as = before ++ x :: after ∧ P (a :: before) x := by
  constructor
  · rintro ⟨before, x, after, he, h⟩
    cases before with
    | nil => exact .inl ((List.cons.inj he).1 ▸ h)
    | cons c cs =>
      obtain ⟨rfl, rfl⟩ := List.cons.inj he
      exact .inr ⟨cs, x, after, rfl, h⟩
  · rintro (h | ⟨before, x, after, rfl, h⟩)
    · exact ⟨[], a, as, rfl, h⟩
    · exact ⟨a :: before, x, after, rfl, h⟩

theorem firstRepeat_eq_some_iff {seen ls : List Label} {l : Label} :
    firstRepeat seen ls = some l ↔ ∃ before k after, ls = before ++ k :: after ∧
      (before.Nodup ∧ ∀ j ∈ before, j ∉ seen) ∧ (k ∈ seen ∨ k ∈ before) ∧ k = l := by
  induction ls generalizing seen with
  | nil => simp [firstRepeat]
  | cons a as ih =>
    rw [exists_split_cons]
    by_cases ha : a ∈ seen
    · simp [firstRepeat, ha]
    · simp only [firstRepeat, ha, if_false, ih]
      simp
      grind

namespace Body

variable {b : Body} {flaw : Flaw} {i : Instr} {index least : Nat} {ls : List Label}

def InOrder (b : Body) (ls : List Label) : Prop :=
  (∀ l ∈ ls, l ∈ b.labels) ∧ (ls.filterMap b.position?).Pairwise (· ≤ ·)

theorem ascending_iff_inOrder : b.Ascending 0 ls ↔ b.InOrder ls := by
  rw [ascending_iff]
  exact and_congr_right fun _ ↦ and_iff_right fun n _ ↦ Nat.zero_le n

theorem inOrder_boundaries_iff {r : Region} : b.InOrder r.boundaries ↔ ∃ m n p q,
    b.position? r.tryStart = some m ∧ b.position? r.tryEnd = some n ∧
      b.position? r.handlerStart = some p ∧ b.position? r.handlerEnd = some q ∧
      m ≤ n ∧ n ≤ p ∧ p ≤ q := by
  rw [← ascending_iff_inOrder]
  constructor
  · rintro ⟨m, hm, -, n, hn, hmn, p, hp, hnp, q, hq, hpq, -⟩
    exact ⟨m, n, p, q, hm, hn, hp, hq, hmn, hnp, hpq⟩
  · rintro ⟨m, n, p, q, hm, hn, hp, hq, hmn, hnp, hpq⟩
    exact ⟨m, hm, Nat.zero_le m, n, hn, hmn, p, hp, hnp, q, hq, hpq, trivial⟩

/-- What the first flaw of a body is: something is wrong at the place that it names, and nothing is
wrong ahead of that place. Labels come first, then the code, then the regions. -/
inductive Shows (b : Body) : Flaw → Prop
  | repeatedLabel {before after : List Label} {l : Label} (hlabels : b.labels = before ++ l :: after)
      (hbefore : before.Nodup) (hl : l ∈ before) : Shows b (.repeatedLabel l)
  | danglingBranch {before after : List Instr} {i : Instr} {target : Label} (hn : b.labels.Nodup)
      (hcode : b.code = before ++ i :: after) (hbefore : ∀ j ∈ before, b.Permits j.op)
      (ht : i.op.target? = some target) (htarget : target ∉ b.labels) :
      Shows b (.danglingBranch i.label target)
  | undeclaredLocal {before after : List Instr} {i : Instr} {slot : UInt16} (hn : b.labels.Nodup)
      (hcode : b.code = before ++ i :: after) (hbefore : ∀ j ∈ before, b.Permits j.op)
      (hs : i.op.slot? = some slot) (hslot : b.locals.length ≤ slot.toNat) :
      Shows b (.undeclaredLocal i.label slot)
  | danglingRegion {before after : List Region} {r : Region} {front rest : List Label} {l : Label}
      (hn : b.labels.Nodup) (hcode : ∀ i ∈ b.code, b.Permits i.op)
      (hregions : b.regions = before ++ r :: after) (hbefore : ∀ q ∈ before, b.InOrder q.boundaries)
      (hr : r.boundaries = front ++ l :: rest) (hfront : b.InOrder front) (hl : l ∉ b.labels) :
      Shows b (.danglingRegion before.length l)
  | regionOrder {before after : List Region} {r : Region} {front rest : List Label} {l : Label}
      (hn : b.labels.Nodup) (hcode : ∀ i ∈ b.code, b.Permits i.op)
      (hregions : b.regions = before ++ r :: after) (hbefore : ∀ q ∈ before, b.InOrder q.boundaries)
      (hr : r.boundaries = front ++ l :: rest) (hfront : b.InOrder front) (hl : l ∈ b.labels)
      (horder : ¬b.InOrder (front ++ [l])) : Shows b (.regionOrder before.length)

theorem instrFlaw?_eq_some_iff : b.instrFlaw? i = some flaw ↔
    (∃ t, i.op.target? = some t ∧ t ∉ b.labels ∧ flaw = .danglingBranch i.label t) ∨
      ∃ k, i.op.slot? = some k ∧ b.locals.length ≤ k.toNat ∧
        flaw = .undeclaredLocal i.label k := by
  cases h : i.op <;> simp [instrFlaw?, h, Op.target?, Op.slot?, eq_comm]

theorem codeFlaw?_eq_some_iff : b.code.findSome? b.instrFlaw? = some flaw ↔
    ∃ before i after, b.code = before ++ i :: after ∧ (∀ j ∈ before, b.Permits j.op) ∧
      b.instrFlaw? i = some flaw := by
  rw [List.findSome?_eq_some_iff]
  simp only [instrFlaw?_eq_none, Permits]
  exact exists_congr fun _ ↦ exists_congr fun _ ↦ exists_congr fun _ ↦
    and_congr_right fun _ ↦ and_comm

theorem boundaryFlaw?_eq_some_iff : b.boundaryFlaw? index least ls = some flaw ↔
    ∃ front l rest, ls = front ++ l :: rest ∧ b.Ascending least front ∧
      (l ∉ b.labels ∧ flaw = .danglingRegion index l ∨
        l ∈ b.labels ∧ ¬b.Ascending least (front ++ [l]) ∧ flaw = .regionOrder index) := by
  induction ls generalizing least with
  | nil => simp [boundaryFlaw?]
  | cons k ks ih =>
    rw [exists_split_cons]
    cases h : b.position? k with
    | none =>
      have hk : k ∉ b.labels := fun hk ↦ by
        obtain ⟨n, hn⟩ := mem_labels_iff.1 hk
        cases h.symm.trans hn
      simp [boundaryFlaw?, Ascending, h, hk, eq_comm]
    | some n =>
      have hk : k ∈ b.labels := mem_labels_iff.2 ⟨n, h⟩
      by_cases hn : n < least
      · have hnle : ¬least ≤ n := Nat.not_le_of_lt hn
        simp [boundaryFlaw?, Ascending, h, hk, hn, hnle, eq_comm]
      · have hle : least ≤ n := Nat.le_of_not_lt hn
        simp [boundaryFlaw?, Ascending, h, hk, hn, hle, ih]

theorem regionFlaw?_eq_none {r : Region} :
    b.regionFlaw? index r = none ↔ b.InOrder r.boundaries :=
  boundaryFlaw?_eq_none.trans ascending_iff_inOrder

theorem regionFlaw?_eq_some_iff {r : Region} : b.regionFlaw? index r = some flaw ↔
    ∃ front l rest, r.boundaries = front ++ l :: rest ∧ b.InOrder front ∧
      (l ∉ b.labels ∧ flaw = .danglingRegion index l ∨
        l ∈ b.labels ∧ ¬b.InOrder (front ++ [l]) ∧ flaw = .regionOrder index) := by
  simp only [regionFlaw?, boundaryFlaw?_eq_some_iff, ascending_iff_inOrder]

theorem regionsFlaw?_eq_some_iff {rs : List Region} (start : Nat) :
    ((rs.zipIdx start).findSome? fun x ↦ b.regionFlaw? x.2 x.1) = some flaw ↔
      ∃ before r after, rs = before ++ r :: after ∧ (∀ q ∈ before, b.InOrder q.boundaries) ∧
        b.regionFlaw? (start + before.length) r = some flaw := by
  induction rs generalizing start with
  | nil => simp
  | cons r rs ih =>
    rw [exists_split_cons, List.zipIdx_cons, List.findSome?_cons]
    cases h : b.regionFlaw? start r with
    | some f =>
      have hr : ¬b.InOrder r.boundaries := fun hr ↦ by
        cases h.symm.trans (regionFlaw?_eq_none.2 hr)
      simp [hr]
    | none =>
      have hr : b.InOrder r.boundaries := regionFlaw?_eq_none.1 h
      simp [ih, hr, Nat.add_assoc, Nat.add_comm 1]

theorem Shows.of_flaw? (h : b.flaw? = some flaw) : b.Shows flaw := by
  unfold flaw? at h
  split at h
  · rename_i l hl
    obtain ⟨before, k, after, hlabels, ⟨hn, -⟩, hk, rfl⟩ := firstRepeat_eq_some_iff.1 hl
    cases h
    exact .repeatedLabel hlabels hn (hk.resolve_left List.not_mem_nil)
  · rename_i hl
    have hn := (firstRepeat_eq_none.1 hl).1
    split at h
    · rename_i f hf
      cases h
      obtain ⟨before, i, after, hcode, hbefore, hi⟩ := codeFlaw?_eq_some_iff.1 hf
      obtain ⟨t, ht, htarget, rfl⟩ | ⟨k, hk, hslot, rfl⟩ := instrFlaw?_eq_some_iff.1 hi
      · exact .danglingBranch hn hcode hbefore ht htarget
      · exact .undeclaredLocal hn hcode hbefore hk hslot
    · rename_i hf
      have hcode : ∀ i ∈ b.code, b.Permits i.op := fun i hi ↦
        instrFlaw?_eq_none.1 (List.findSome?_eq_none_iff.1 hf i hi)
      obtain ⟨before, r, after, hregions, hbefore, hr⟩ :=
        (regionsFlaw?_eq_some_iff 0).1 h
      rw [Nat.zero_add] at hr
      obtain ⟨front, l, rest, hb, hfront, ⟨hl, rfl⟩ | ⟨hl, horder, rfl⟩⟩ :=
        regionFlaw?_eq_some_iff.1 hr
      · exact .danglingRegion hn hcode hregions hbefore hb hfront hl
      · exact .regionOrder hn hcode hregions hbefore hb hfront hl horder

theorem flaw?_ne_repeatedLabel (hn : b.labels.Nodup) (l : Label) :
    b.flaw? ≠ some (.repeatedLabel l) := by
  intro h
  cases Shows.of_flaw? h with
  | repeatedLabel hlabels _ hl =>
    rw [hlabels] at hn
    exact (List.nodup_append.1 hn).2.2 l hl l List.mem_cons_self rfl

theorem firstRepeat_labels (hn : b.labels.Nodup) : firstRepeat [] b.labels = none :=
  firstRepeat_eq_none.2 ⟨hn, fun _ _ ↦ List.not_mem_nil⟩

theorem flaw?_of_codeFlaw? (hn : b.labels.Nodup) (h : b.code.findSome? b.instrFlaw? = some flaw) :
    b.flaw? = some flaw := by
  simp only [flaw?, firstRepeat_labels hn, h]

theorem flaw?_of_regionFlaw? (hn : b.labels.Nodup) (hcode : ∀ i ∈ b.code, b.Permits i.op)
    {before after : List Region} {r : Region} (hregions : b.regions = before ++ r :: after)
    (hbefore : ∀ q ∈ before, b.InOrder q.boundaries)
    (h : b.regionFlaw? before.length r = some flaw) : b.flaw? = some flaw := by
  have hlabels : firstRepeat [] b.labels = none :=
    firstRepeat_eq_none.2 ⟨hn, fun _ _ ↦ List.not_mem_nil⟩
  have hnone : b.code.findSome? b.instrFlaw? = none :=
    List.findSome?_eq_none_iff.2 fun i hi ↦ instrFlaw?_eq_none.2 (hcode i hi)
  have hfound := (regionsFlaw?_eq_some_iff 0).2
    ⟨before, r, after, hregions, hbefore, by rwa [Nat.zero_add]⟩
  simp only [flaw?, firstRepeat_labels hn, hnone]
  exact hfound

theorem Shows.flaw?_eq (h : b.Shows flaw) : b.flaw? = some flaw := by
  cases h with
  | repeatedLabel hlabels hbefore hl =>
    have hfound := firstRepeat_eq_some_iff.2
      ⟨_, _, _, hlabels, ⟨hbefore, fun _ _ ↦ List.not_mem_nil⟩, .inr hl, rfl⟩
    simp only [flaw?, hfound]
  | danglingBranch hn hcode hbefore ht htarget =>
    have hi := instrFlaw?_eq_some_iff.2 (.inl ⟨_, ht, htarget, rfl⟩)
    exact flaw?_of_codeFlaw? hn (codeFlaw?_eq_some_iff.2 ⟨_, _, _, hcode, hbefore, hi⟩)
  | undeclaredLocal hn hcode hbefore hs hslot =>
    have hi := instrFlaw?_eq_some_iff.2 (.inr ⟨_, hs, hslot, rfl⟩)
    exact flaw?_of_codeFlaw? hn (codeFlaw?_eq_some_iff.2 ⟨_, _, _, hcode, hbefore, hi⟩)
  | danglingRegion hn hcode hregions hbefore hr hfront hl =>
    exact flaw?_of_regionFlaw? hn hcode hregions hbefore
      (regionFlaw?_eq_some_iff.2 ⟨_, _, _, hr, hfront, .inl ⟨hl, rfl⟩⟩)
  | regionOrder hn hcode hregions hbefore hr hfront hl horder =>
    exact flaw?_of_regionFlaw? hn hcode hregions hbefore
      (regionFlaw?_eq_some_iff.2 ⟨_, _, _, hr, hfront, .inr ⟨hl, horder, rfl⟩⟩)

theorem flaw?_eq_some_iff : b.flaw? = some flaw ↔ b.Shows flaw := ⟨Shows.of_flaw?, Shows.flaw?_eq⟩

/-- A body has no flaw exactly if no label is there twice, every branch goes to a label that is there,
every local is declared and the boundaries of every region stand in order. Else the answer is the first
thing that is wrong. -/
theorem flaw?_decides (b : Body) : (b.flaw? = none ↔ b.labels.Nodup ∧
      (∀ i ∈ b.code, ∀ t, i.op.target? = some t → t ∈ b.labels) ∧
      (∀ i ∈ b.code, ∀ k, i.op.slot? = some k → k.toNat < b.locals.length) ∧
      ∀ r ∈ b.regions, ∃ m n p q, b.position? r.tryStart = some m ∧
        b.position? r.tryEnd = some n ∧ b.position? r.handlerStart = some p ∧
        b.position? r.handlerEnd = some q ∧ m ≤ n ∧ n ≤ p ∧ p ≤ q) ∧
    ∀ flaw, b.flaw? = some flaw ↔ b.Shows flaw := by
  simp only [← inOrder_boundaries_iff, ← ascending_iff_inOrder]
  refine ⟨flaw?_eq_none.trans ⟨fun h ↦ ?_, fun ⟨hn, ht, hs, hr⟩ ↦ ?_⟩, fun flaw ↦ flaw?_eq_some_iff⟩
  · exact ⟨h.nodup, h.target, h.slot, h.region⟩
  · exact ⟨hn, ht, hs, hr⟩

end Body

end CilSpan
