import CilSpan.Proofs.Body.Verdict
import CilSpan.Proofs.Draft.Follows

namespace CilSpan

theorem leastLabel?_eq_none {ls : List Label} : Draft.leastLabel? ls = none ↔ ls = [] := by
  cases ls with
  | nil => simp [Draft.leastLabel?]
  | cons l ls => cases h : Draft.leastLabel? ls <;> simp [Draft.leastLabel?, h]

theorem leastLabel?_spec {ls : List Label} {l : Label} (h : Draft.leastLabel? ls = some l) :
    l ∈ ls ∧ ∀ m ∈ ls, l.val ≤ m.val := by
  induction ls generalizing l with
  | nil => cases h
  | cons k ls ih =>
    cases hrest : Draft.leastLabel? ls with
    | none =>
      obtain rfl := leastLabel?_eq_none.1 hrest
      obtain rfl : k = l := by simpa [Draft.leastLabel?] using h
      simp
    | some m =>
      obtain ⟨hm, hle⟩ := ih hrest
      simp only [Draft.leastLabel?, hrest, Option.some.injEq] at h
      by_cases hmk : m.val < k.val
      · obtain rfl : m = l := by simpa [hmk] using h
        exact ⟨List.mem_cons_of_mem k hm, List.forall_mem_cons.2 ⟨UInt32.le_of_lt hmk, hle⟩⟩
      · obtain rfl : k = l := by simpa [hmk] using h
        have hkm := UInt32.not_lt.1 hmk
        exact ⟨List.mem_cons_self, List.forall_mem_cons.2
          ⟨UInt32.le_refl _, fun j hj ↦ UInt32.le_trans hkm (hle j hj)⟩⟩

theorem leastLabel?_eq_some {ls : List Label} {l : Label} :
    Draft.leastLabel? ls = some l ↔ l ∈ ls ∧ ∀ m ∈ ls, l.val ≤ m.val := by
  refine ⟨leastLabel?_spec, fun ⟨hl, hle⟩ ↦ ?_⟩
  cases h : Draft.leastLabel? ls with
  | none => exact absurd (leastLabel?_eq_none.1 h ▸ hl) List.not_mem_nil
  | some m =>
    obtain ⟨hm, hle'⟩ := leastLabel?_spec h
    exact congrArg (fun n ↦ some (Label.mk n)) (UInt32.le_antisymm (hle' l hl) (hle m hm))

theorem findIdx?_eq_of_forall₂ {α β : Type} {R : α → β → Prop} {p : α → Bool} {q : β → Bool}
    {as : List α} {bs : List β} (h : List.Forall₂ R as bs) (hpq : ∀ a b, R a b → p a = q b) :
    as.findIdx? p = bs.findIdx? q := by
  induction h with
  | nil => rfl
  | cons hab _ ih => rw [List.findIdx?_cons, List.findIdx?_cons, hpq _ _ hab, ih]

theorem forall_iff_of_forall₂ {α β : Type} {R : α → β → Prop} {p : α → Prop} {q : β → Prop}
    {as : List α} {bs : List β} (h : List.Forall₂ R as bs) (hpq : ∀ a b, R a b → (p a ↔ q b)) :
    (∀ a ∈ as, p a) ↔ ∀ b ∈ bs, q b := by
  induction h with
  | nil => simp
  | cons hab _ ih => rw [List.forall_mem_cons, List.forall_mem_cons, hpq _ _ hab, ih]

/-- There are no more labels than that. -/
theorem Body.size_le_of_nodup {b : Body} (h : b.labels.Nodup) : b.size ≤ UInt32.size := by
  have hnumbers : (b.labels.map fun l ↦ l.val.toNat).Nodup := by
    refine h.map fun l m he ↦ ?_
    exact congrArg Label.mk (UInt32.toNat_inj.1 he)
  have hsub : b.labels.map (fun l ↦ l.val.toNat) ⊆ List.range UInt32.size := by
    intro n hn
    obtain ⟨l, -, rfl⟩ := List.mem_map.1 hn
    exact List.mem_range.2 l.val.toNat_lt
  have hlength := (List.subperm_of_subset hnumbers hsub).length_le
  rwa [List.length_map, List.length_range, Body.labels, List.length_map] at hlength

namespace Draft

theorem size_emit (d : Draft) (op : Op) : (d.emit op).2.body.size = d.body.size + 1 := by
  unfold emit
  cases d.waiting <;> simp [Body.push, Body.create, Body.append, Body.size]

theorem size_emitAll (d : Draft) (ops : List Op) :
    (d.emitAll ops).body.size = d.body.size + ops.length := by
  induction ops generalizing d with
  | nil => rfl
  | cons op ops ih =>
    have hrest := ih (d.emit op).2
    rw [size_emit, Nat.add_assoc, Nat.add_comm 1] at hrest
    exact hrest

theorem size_le_of_build {d : Draft} {b : Body} (h : d.build = .ok b) :
    d.body.size ≤ UInt32.size := by
  unfold build at h
  split at h
  · cases h
  · cases h
  · cases h
  · exact Body.size_le_of_nodup (Body.flaw?_eq_none.1 ‹_›).nodup

end Draft

namespace Desk

def Zone.InOrder (marks : List Mark) (z : Zone) : Prop :=
  ∃ m n p q, place? marks z.tryStart = some m ∧ place? marks z.tryEnd = some n ∧
    place? marks z.handlerStart = some p ∧ place? marks z.handlerEnd = some q ∧
    m ≤ n ∧ n ≤ p ∧ p ≤ q

/-- Nothing is missing and nothing is done twice. `names` are the labels of all that is emitted. -/
structure Complete (o : Outline) (names : List Label) : Prop where
  closed : open? o.marks = none
  every : ∀ k < o.labels, k ∈ bound o.marks
  once : (bound o.marks).Nodup
  target : ∀ op, .emit op ∈ o.marks → ∀ t, op.target? = some t → t ∈ names
  slot : ∀ op, .emit op ∈ o.marks → ∀ k, op.slot? = some k → k.toNat < o.locals.length
  order : ∀ z ∈ o.zones, z.InOrder o.marks

theorem Carries.label_eq_iff {ls : List Label} {w : Option Nat × Op} {i : Instr} {k : Nat} {l : Label}
    (h : Carries ls w i) (hls : ls.Nodup) (hk : ls[k]? = some l) : i.label = l ↔ w.1 = some k := by
  obtain ⟨k?, op⟩ := w
  obtain ⟨-, hlabel⟩ := h
  cases k? with
  | none =>
    have hne : i.label ≠ l := fun he ↦ hlabel (he ▸ List.mem_of_getElem? hk)
    simp [hne]
  | some m =>
    simp only [Option.some.injEq]
    constructor
    · intro he
      exact number_unique hls hlabel (he ▸ hk)
    · rintro rfl
      exact Option.some.inj (hlabel.symm.trans hk)

section Forall

variable {ls : List Label} {ws : List (Option Nat × Op)} {code : List Instr} {k : Nat} {l : Label}

theorem mem_iff_of_carries (hls : ls.Nodup) (h : List.Forall₂ (Carries ls) ws code)
    (hk : ls[k]? = some l) : l ∈ code.map Instr.label ↔ k ∈ ws.filterMap Prod.fst := by
  induction h with
  | nil => simp
  | cons hi _ ih => simp [eq_comm (a := l), hi.label_eq_iff hls hk, ih]

theorem nodup_iff_of_carries (hls : ls.Nodup) (h : List.Forall₂ (Carries ls) ws code)
    (hown : ((code.map Instr.label).filter (· ∉ ls)).Nodup) :
    (code.map Instr.label).Nodup ↔ (ws.filterMap Prod.fst).Nodup := by
  induction h with
  | nil => simp
  | @cons w i ws code hi hrest ih =>
    obtain ⟨k?, op⟩ := w
    cases k? with
    | none =>
      have hl : i.label ∉ ls := hi.2
      rw [List.map_cons, List.filter_cons_of_pos (by simpa using hl), List.nodup_cons] at hown
      have hfresh : i.label ∉ code.map Instr.label := fun hmem ↦
        hown.1 (List.mem_filter.2 ⟨hmem, by simpa using hl⟩)
      rw [List.map_cons, List.nodup_cons, List.filterMap_cons_none rfl, ih hown.2]
      exact and_iff_right hfresh
    | some k =>
      have hk : ls[k]? = some i.label := hi.2
      rw [List.map_cons, List.filter_cons_of_neg (by simpa using List.mem_of_getElem? hk)] at hown
      have hws : ((some k, op) :: ws).filterMap Prod.fst = k :: ws.filterMap Prod.fst := rfl
      rw [List.map_cons, List.nodup_cons, hws, List.nodup_cons, mem_iff_of_carries hls hrest hk,
        ih hown]

end Forall

namespace Carried

variable {ls : List Label} {b : Body} {ws : List (Option Nat × Op)} {l : Label} {k : Nat}
  {marks : List Mark}

theorem nodup_labels_iff (h : Carried ls b ws) :
    b.labels.Nodup ↔ (ws.filterMap Prod.fst).Nodup :=
  nodup_iff_of_carries h.distinct.of_append_left h.code h.distinct.of_append_right

/-- A label stands where the outline puts it. -/
theorem position?_eq (h : Carried ls b (written marks)) (hk : ls[k]? = some l) :
    b.position? l = place? marks k :=
  (findIdx?_eq_of_forall₂ h.code fun _ _ hi ↦
    decide_eq_decide.2 (hi.label_eq_iff h.distinct.of_append_left hk).symm).symm

theorem inOrder_iff (h : Carried ls b (written marks)) {z : Zone} {r : Region}
    (hz : z.Fences ls r) : b.InOrder r.boundaries ↔ z.InOrder marks := by
  obtain ⟨-, hlabels⟩ := hz
  simp only [Zone.numbers, Region.boundaries, List.map_cons, List.map_nil, List.cons.injEq,
    and_true] at hlabels
  obtain ⟨ha, hb, hc, hd⟩ := hlabels
  rw [Body.inOrder_boundaries_iff, h.position?_eq ha, h.position?_eq hb, h.position?_eq hc,
    h.position?_eq hd]
  rfl

end Carried

namespace Follows

variable {o : Outline} {s : Desk}

theorem forall_op_iff (h : Follows o s) {P : Op → Prop} (hnop : P .nop) :
    (∀ i ∈ s.draft.body.code, P i.op) ↔ ∀ op, .emit op ∈ o.marks → P op := by
  rw [← forall_iff_of_forall₂ (p := fun w ↦ P w.2) h.carried.code fun _ _ hi ↦ by rw [hi.1]]
  constructor
  · intro hall op hop
    obtain ⟨k?, hw⟩ := exists_written_of_emit hop
    exact hall (k?, op) hw
  · rintro hall ⟨k?, op⟩ hw
    obtain hop | rfl := emit_of_written hw
    · exact hall op hop
    · exact hnop

/-- Once every label has its place, the search for flaws looks at what the outline asks for. -/
theorem flaw?_eq_none_iff (h : Follows o s) (hopen : open? o.marks = none)
    (hevery : ∀ k < o.labels, k ∈ Desk.bound o.marks) :
    s.draft.body.flaw? = none ↔ Complete o s.draft.body.labels := by
  have honce : s.draft.body.labels.Nodup ↔ (Desk.bound o.marks).Nodup := by
    rw [h.carried.nodup_labels_iff, bound_eq, hopen, Option.toList_none, List.append_nil]
  have htarget := h.forall_op_iff
    (P := fun op ↦ ∀ t, op.target? = some t → t ∈ s.draft.body.labels) nofun
  have hslot := h.forall_op_iff
    (P := fun op ↦ ∀ k, op.slot? = some k → k.toNat < s.draft.body.locals.length) nofun
  have horder := forall_iff_of_forall₂ (q := fun r ↦ s.draft.body.Ascending 0 r.boundaries)
    h.regions fun z r hz ↦ ((h.carried.inOrder_iff hz).symm.trans
      Body.ascending_iff_inOrder.symm)
  have hlocals : ∀ k : UInt16, k.toNat < s.draft.body.locals.length ↔ k.toNat < o.locals.length := by
    intro k
    have hk : k.toNat < UInt16.size := k.toNat_lt
    rw [h.locals, List.length_take]
    omega
  rw [Body.flaw?_eq_none]
  constructor
  · intro hb
    exact ⟨hopen, hevery, honce.1 hb.nodup, htarget.1 hb.target,
      fun op hop k hk ↦ (hlocals k).1 (hslot.1 hb.slot op hop k hk), horder.2 hb.region⟩
  · intro hc
    exact ⟨honce.2 hc.once, htarget.2 hc.target,
      hslot.2 fun op hop k hk ↦ (hlocals k).2 (hc.slot op hop k hk), horder.1 hc.order⟩

theorem unbound_eq_nil_iff (h : Follows o s) :
    s.draft.unbound = [] ↔ ∀ k < o.labels, k ∈ Desk.bound o.marks := by
  rw [List.eq_nil_iff_forall_not_mem]
  simp only [h.unbound, not_exists, not_and, not_not, ← h.handed]
  constructor
  · intro hall k hk
    exact hall _ k (List.getElem?_eq_getElem hk)
  · intro hall l k hl
    exact hall k (List.getElem?_eq_some_iff.1 hl).1

end Follows

/-- What stands against the body: first a label that waits for an instruction, then the least label that
was never bound, and only then the flaws of the code. -/
inductive Fails (o : Outline) (s : Desk) : Flaw → Prop
  | waiting {k : Nat} {l : Label} (hopen : open? o.marks = some k) (hl : s.labels[k]? = some l) :
      Fails o s (.unboundLabel l)
  | unbound {k : Nat} {l : Label} (hopen : open? o.marks = none) (hl : s.labels[k]? = some l)
      (hk : k ∉ bound o.marks)
      (hleast : ∀ m j, s.labels[m]? = some j → m ∉ bound o.marks → l.val ≤ j.val) :
      Fails o s (.unboundLabel l)
  | flawed {flaw : Flaw} (hopen : open? o.marks = none) (hevery : ∀ k < o.labels, k ∈ bound o.marks)
      (hflaw : s.draft.body.flaw? = some flaw) : Fails o s flaw

variable {o : Outline} {s : Desk} {flaw : Flaw}

theorem Complete.build_eq (hc : Complete o s.draft.body.labels) (h : Follows o s) :
    s.draft.build = .ok s.draft.body := by
  have hwaiting : s.draft.waiting = none := by rw [h.waiting, hc.closed, Option.bind_none]
  have hunbound := leastLabel?_eq_none.2 (h.unbound_eq_nil_iff.2 hc.every)
  have hflaw := (h.flaw?_eq_none_iff hc.closed hc.every).2 hc
  simp only [Draft.build, hwaiting, hunbound, hflaw]

theorem Fails.build_eq (hf : Fails o s flaw) (h : Follows o s) : s.draft.build = .error flaw := by
  cases hf with
  | @waiting k l hopen hl =>
    have hwaiting : s.draft.waiting = some l := by rw [h.waiting, hopen, Option.bind_some, hl]
    simp only [Draft.build, hwaiting]
  | @unbound k l hopen hl hk hleast =>
    have hwaiting : s.draft.waiting = none := by rw [h.waiting, hopen, Option.bind_none]
    have hunbound : Draft.leastLabel? s.draft.unbound = some l := by
      refine leastLabel?_eq_some.2 ⟨(h.unbound l).2 ⟨k, hl, hk⟩, fun j hj ↦ ?_⟩
      obtain ⟨m, hm, hbound⟩ := (h.unbound j).1 hj
      exact hleast m j hm hbound
    simp only [Draft.build, hwaiting, hunbound]
  | flawed hopen hevery hflaw =>
    have hwaiting : s.draft.waiting = none := by rw [h.waiting, hopen, Option.bind_none]
    have hunbound := leastLabel?_eq_none.2 (h.unbound_eq_nil_iff.2 hevery)
    simp only [Draft.build, hwaiting, hunbound, hflaw]

/-- If nothing stands against it the body is complete. -/
theorem Follows.complete_or_fails (h : Follows o s) :
    Complete o s.draft.body.labels ∨ ∃ flaw, Fails o s flaw := by
  obtain ⟨hopen, -⟩ | ⟨k, l, hopen, hl, -⟩ := h.waiting_cases
  · cases hleast : Draft.leastLabel? s.draft.unbound with
    | some l =>
      obtain ⟨hl, hle⟩ := leastLabel?_eq_some.1 hleast
      obtain ⟨k, hk, hbound⟩ := (h.unbound l).1 hl
      exact .inr ⟨_, .unbound hopen hk hbound fun m j hm hj ↦ hle j ((h.unbound j).2 ⟨m, hm, hj⟩)⟩
    | none =>
      have hevery := h.unbound_eq_nil_iff.1 (leastLabel?_eq_none.1 hleast)
      cases hflaw : s.draft.body.flaw? with
      | some flaw => exact .inr ⟨flaw, .flawed hopen hevery hflaw⟩
      | none => exact .inl ((h.flaw?_eq_none_iff hopen hevery).1 hflaw)
  · exact .inr ⟨_, .waiting hopen hl⟩

/-- Whatever the order in which labels are handed out, bound and rebound and instructions emitted, the
draft is what was asked for, and it is built exactly if that is complete. -/
theorem build_exact (acts : List Act) (hallows : Outline.empty.AllowsAll acts)
    (hroom : (Outline.empty.after acts).drawn < UInt32.size) :
    let o := Outline.empty.after acts
    let s := empty.after acts
    Follows o s ∧
      (∀ b, s.draft.build = .ok b ↔ Complete o s.draft.body.labels ∧ b = s.draft.body) ∧
      (Complete o s.draft.body.labels → s.draft.body.flaw? = none) ∧
      ∀ flaw, s.draft.build = .error flaw ↔ Fails o s flaw := by
  intro o s
  have h : Follows o s := follows_empty.after hallows hroom
  refine ⟨h, fun b ↦ ⟨fun hb ↦ ?_, ?_⟩, fun hc ↦ (h.flaw?_eq_none_iff hc.closed hc.every).2 hc,
    fun flaw ↦ ⟨fun hb ↦ ?_, fun hf ↦ hf.build_eq h⟩⟩
  · obtain hc | ⟨flaw, hf⟩ := h.complete_or_fails
    · exact ⟨hc, Except.ok.inj (hb.symm.trans (hc.build_eq h))⟩
    · cases hb.symm.trans (hf.build_eq h)
  · rintro ⟨hc, rfl⟩
    exact hc.build_eq h
  · obtain hc | ⟨flaw', hf⟩ := h.complete_or_fails
    · cases hb.symm.trans (hc.build_eq h)
    · exact Except.error.inj ((hf.build_eq h).symm.trans hb) ▸ hf

/-- A protected range ends where its handler begins, and there are two labels for the place: the first
one gets a `nop`. The body is complete, and no longer so when a label is bound again. -/
theorem build_exact_twoLabels :
    let acts := [.label, .label, .label, .label, .bind 0, .emit (.branch .leave .long ⟨3⟩), .bind 1,
      .bind 2, .emitAll [.ldc 7, .pop], .emit .endfinally, .bind 3, .emit .ret,
      .addRegion .cleanup 0 1 2 3]
    let again := acts ++ [.bind 2, .emit .ret]
    let b := (empty.after acts).draft.body
    ((empty.after acts).draft.build = .ok b ∧ b.flaw? = none ∧
      b.labels = [⟨0⟩, ⟨1⟩, ⟨2⟩, ⟨4⟩, ⟨5⟩, ⟨3⟩] ∧ Complete (Outline.empty.after acts) b.labels) ∧
    (empty.after again).draft.build = .error (.repeatedLabel ⟨2⟩) ∧
      Fails (Outline.empty.after again) (empty.after again) (.repeatedLabel ⟨2⟩) := by
  intro acts again b
  have hallows : Outline.empty.AllowsAll acts := by
    simp [acts, Outline.AllowsAll, Outline.Allows, Outline.note, Outline.empty, Zone.numbers]
  have hagain : Outline.empty.AllowsAll again := by
    simp [acts, again, Outline.AllowsAll, Outline.Allows, Outline.note, Outline.empty, Zone.numbers]
  have hbuilt : (empty.after acts).draft.build = .ok b := rfl
  have hfailed : (empty.after again).draft.build = .error (.repeatedLabel ⟨2⟩) := rfl
  obtain ⟨-, hok, hflaw, -⟩ := build_exact acts hallows (by decide)
  obtain ⟨-, -, -, herror⟩ := build_exact again hagain (by decide)
  obtain ⟨hc, -⟩ := (hok b).1 hbuilt
  exact ⟨⟨hbuilt, hflaw hc, by decide, hc⟩, hfailed, (herror _).1 hfailed⟩

theorem complete_nops (n : Nat) (names : List Label) :
    Complete (Outline.empty.after [.emitAll (.replicate n .nop)]) names := by
  have hmarks : (Outline.empty.after [.emitAll (.replicate n .nop)]).marks =
      .replicate n (.emit .nop) := List.map_replicate
  have hop : ∀ op, .emit op ∈ List.replicate n (Mark.emit .nop) → op = .nop := fun op h ↦
    Mark.emit.inj (List.eq_of_mem_replicate h)
  refine ⟨?_, nofun, ?_, fun op h t ht ↦ ?_, fun op h k hk ↦ ?_, nofun⟩
  · rw [hmarks]
    cases n with
    | zero => rfl
    | succ n => rw [List.replicate_succ', open?_emit]
  · rw [hmarks, bound, List.filterMap_replicate_of_none rfl]
    exact List.nodup_nil
  · cases hop op (hmarks ▸ h)
    cases ht
  · cases hop op (hmarks ▸ h)
    cases hk

theorem not_build_nops {n : Nat} (hn : UInt32.size < n) (b : Body) :
    (empty.after [.emitAll (.replicate n .nop)]).draft.build ≠ .ok b := by
  intro hb
  have hsize := (Draft.size_emitAll .empty (.replicate n .nop)).symm.trans_le
    (Draft.size_le_of_build hb)
  rw [List.length_replicate] at hsize
  omega

/-- A branch may go to a `nop` that is there for a label and that nobody has emitted. And when more
instructions are emitted than there are labels, what is complete is not built. -/
theorem build_apart :
    let branch := [.label, .label, .bind 0, .bind 1, .emit (.branch .always .long ⟨0⟩)]
    let many := [.emitAll (.replicate (UInt32.size + 1) .nop)]
    (∃ b, (empty.after branch).draft.build = .ok b ∧
      b.code = [⟨⟨0⟩, .nop⟩, ⟨⟨1⟩, .branch .always .long ⟨0⟩⟩]) ∧
    Outline.empty.AllowsAll many ∧
      Complete (Outline.empty.after many) (empty.after many).draft.body.labels ∧
      ∀ b, (empty.after many).draft.build ≠ .ok b :=
  ⟨⟨_, rfl, rfl⟩, ⟨trivial, trivial⟩, complete_nops _ _, not_build_nops (Nat.lt_succ_self _)⟩

end Desk

end CilSpan
