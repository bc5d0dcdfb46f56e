import CilSpan.Proofs.Span.Edits
import Mathlib.Data.List.Perm.Basic

namespace CilSpan

namespace Body

variable {b c d : Body} {n : Nat} {l : Label} {spare spare' : List Label} {ops : List Op}

theorem toNat_add_one {n : UInt32} (h : n.toNat + 1 < UInt32.size) :
    (n + 1).toNat = n.toNat + 1 := by
  rw [UInt32.toNat_add]
  exact Nat.mod_eq_of_lt h

theorem numbers_createAll (h : b.next.toNat + ops.length < UInt32.size) :
    (b.createAll ops).1.map (fun i ↦ i.label.val.toNat) =
      List.range' b.next.toNat ops.length := by
  induction ops generalizing b with
  | nil => rfl
  | cons op ops ih =>
    rw [List.length_cons] at h
    have hnext : (b.next + 1).toNat = b.next.toNat + 1 := toNat_add_one (by omega)
    have hrest := @ih { b with next := b.next + 1 } (by simp only [hnext]; omega)
    simp only [hnext] at hrest
    rw [createAll, List.map_cons, List.length_cons, List.range'_succ]
    exact congrArg (b.next.toNat :: ·) hrest

theorem bounds_createAll (h : b.next.toNat + ops.length < UInt32.size) :
    ∀ l ∈ (b.createAll ops).1.map Instr.label,
      b.next.toNat ≤ l.val.toNat ∧ l.val.toNat < b.next.toNat + ops.length := by
  intro l hl
  obtain ⟨i, hi, rfl⟩ := List.mem_map.1 hl
  have hmem := List.mem_map_of_mem (f := fun i ↦ i.label.val.toNat) hi
  rw [numbers_createAll h, List.mem_range'_1] at hmem
  exact hmem

theorem toNat_next_createAll (h : b.next.toNat + ops.length < UInt32.size) :
    (b.createAll ops).2.next.toNat = b.next.toNat + ops.length := by
  have hlt : ops.length < UInt32.size := by omega
  rw [createAll_eq]
  dsimp only
  rw [UInt32.toNat_add, UInt32.toNat_ofNat_of_lt' hlt]
  exact Nat.mod_eq_of_lt h

/-- If there are not enough labels left, the last one of all is given out, and no count is above it. -/
theorem room_of_lt {n : UInt32} (h : ∀ l ∈ (b.createAll ops).1.map Instr.label, l.val < n) :
    b.next.toNat + ops.length < UInt32.size := by
  induction ops generalizing b with
  | nil => exact b.next.toNat_lt
  | cons op ops ih =>
    simp only [createAll, create, List.map_cons, List.forall_mem_cons] at h
    obtain ⟨hfirst, hrest⟩ := h
    have hroom : b.next.toNat + 1 < UInt32.size :=
      Nat.lt_of_le_of_lt (Nat.succ_le_of_lt (UInt32.lt_iff_toNat_lt.1 hfirst)) n.toNat_lt
    have hsucc := ih hrest
    rw [toNat_add_one hroom] at hsucc
    rw [List.length_cons]
    omega

theorem perm_append (b : Body) (i : Instr) (spare : List Label) :
    (spare ++ (b.append [i]).labels).Perm (i.label :: (spare ++ b.labels)) := by
  refine List.perm_iff_count.2 fun l ↦ ?_
  simp only [labels, Body.append, List.map_append, List.map_cons, List.map_nil,
    List.count_append, List.count_cons, List.count_nil]
  omega

/-- The count of labels stands at `n`. No label stands twice in the body, and those that have been
handed out but have no place yet do not stand there at all. -/
structure Numbered (b : Body) (n : Nat) (spare : List Label) : Prop where
  next : b.next.toNat = n
  nodup : (spare ++ b.labels).Nodup
  below : ∀ l ∈ spare ++ b.labels, l.val.toNat < n

theorem numbered_of_lt (hn : b.labels.Nodup) (hids : ∀ l ∈ b.labels, l.val < b.next) :
    b.Numbered b.next.toNat [] :=
  ⟨rfl, hn, fun l hl ↦ UInt32.lt_iff_toNat_lt.1 (hids l hl)⟩

theorem numbered_lengthen (hn : b.labels.Nodup) (hids : ∀ l ∈ b.labels, l.val < b.next) :
    b.lengthen.Numbered b.next.toNat [] :=
  numbered_of_lt (b.labels_lengthen.symm ▸ hn) (b.labels_lengthen.symm ▸ hids)

namespace Numbered

theorem nodup_labels (h : b.Numbered n spare) : b.labels.Nodup := h.nodup.of_append_right

theorem lt_next (h : b.Numbered n spare) : ∀ l ∈ b.labels, l.val < b.next := by
  intro l hl
  rw [UInt32.lt_iff_toNat_lt, h.next]
  exact h.below l (List.mem_append_right _ hl)

/-- Some instructions are made, and then they, the spare ones and the old ones are placed anew. -/
theorem renew (h : b.Numbered n spare) (ops : List Op) (hroom : n + ops.length < UInt32.size)
    (hnext : c.next = (b.createAll ops).2.next)
    (hp : (spare' ++ c.labels).Perm
      ((b.createAll ops).1.map Instr.label ++ (spare ++ b.labels))) :
    c.Numbered (n + ops.length) spare' := by
  have hroom' := h.next ▸ hroom
  have hnew := numbers_createAll hroom'
  have hval := bounds_createAll hroom'
  rw [h.next] at hnew hval
  refine ⟨?_, hp.nodup_iff.2 (List.nodup_append'.2 ⟨?_, h.nodup, ?_⟩), fun l hl ↦ ?_⟩
  · rw [hnext, toNat_next_createAll hroom', h.next]
  · have hdistinct : ((b.createAll ops).1.map fun i ↦ i.label.val.toNat).Nodup :=
      hnew ▸ List.nodup_range'
    exact List.Nodup.of_map (fun l : Label ↦ l.val.toNat) (by rwa [List.map_map])
  · intro l hl hold
    exact Nat.not_lt_of_le (hval l hl).1 (h.below l hold)
  · obtain hl | hl := List.mem_append.1 (hp.mem_iff.1 hl)
    · exact (hval l hl).2
    · exact Nat.lt_add_right _ (h.below l hl)

theorem of_append {lost : List Label} (h : b.Numbered n (lost ++ spare)) : b.Numbered n spare := by
  have hnodup := h.nodup
  have hbelow := h.below
  rw [List.append_assoc] at hnodup hbelow
  exact ⟨h.next, hnodup.of_append_right, fun l hl ↦ hbelow l (List.mem_append_right _ hl)⟩

theorem of_perm (h : b.Numbered n spare) (hnext : c.next = b.next)
    (hp : (spare' ++ c.labels).Perm (spare ++ b.labels)) : c.Numbered n spare' := by
  have hlt := b.next.toNat_lt
  exact h.renew [] (h.next ▸ hlt) hnext hp

theorem create (h : b.Numbered n spare) (hroom : n + 1 < UInt32.size) :
    Numbered { b with next := b.next + 1 } (n + 1) (b.freshLabel :: spare) :=
  h.renew [.nop] hroom rfl (List.Perm.refl _)

theorem insert (h : b.Numbered n spare) {index : Nat} (hroom : n + ops.length < UInt32.size)
    (hc : Edit.insert index ops b = .ok () c) : c.Numbered (n + ops.length) spare := by
  have hc := Edit.insert_eq_ok hc
  refine h.renew ops hroom (by rw [hc]) ?_
  simp only [hc, labels]
  have hnew := perm_labels_splice b.code (b.createAll ops).1 index
  exact (hnew.append_left spare).trans (List.perm_append_comm_assoc _ _ _)

theorem insertBeforeLast (h : b.Numbered n spare) {count : Nat}
    (hroom : n + ops.length < UInt32.size) (hc : Edit.insertBeforeLast count ops b = .ok () c) :
    c.Numbered (n + ops.length) spare := by
  unfold Edit.insertBeforeLast at hc
  split at hc
  · exact h.insert hroom hc
  · cases hc

theorem append (h : b.Numbered n (l :: spare)) (op : Op) :
    (b.append [⟨l, op⟩]).Numbered n spare :=
  h.of_perm rfl (b.perm_append ⟨l, op⟩ spare)

theorem push (h : b.Numbered n spare) (op : Op) (hroom : n + 1 < UInt32.size) :
    (b.push op).2.Numbered (n + 1) spare :=
  (h.create hroom).append op

theorem expand (h : b.Numbered n spare) (main : Op → Op) (behind : Op → List Op)
    (hl : l ∈ b.labels) {k : Nat} (hk : ∀ op, (behind op).length = k)
    (hroom : n + k < UInt32.size) : (b.expand main behind l).Numbered (n + k) spare := by
  cases hcut : cut? l b.code with
  | none =>
    obtain ⟨i, hi, rfl⟩ := List.mem_map.1 hl
    exact absurd rfl (cut?_eq_none.1 hcut i hi)
  | some cut =>
    obtain ⟨before, op, after⟩ := cut
    obtain ⟨hcode, -⟩ := cut?_eq_some.1 hcut
    rw [← hk op] at hroom ⊢
    simp only [Body.expand, hcut]
    refine h.renew (behind op) hroom rfl (List.perm_iff_count.2 fun k ↦ ?_)
    simp only [labels, hcode, List.map_append, List.map_cons, List.count_append, List.count_cons]
    omega

theorem foldl_expand (h : b.Numbered n spare) (main : Op → Op) (behind : Op → List Op)
    {ls : List Label} (hls : ∀ l ∈ ls, l ∈ b.labels) {k : Nat}
    (hk : ∀ op, (behind op).length = k) (hroom : n + k * ls.length < UInt32.size) :
    (ls.foldl (Body.expand main behind) b).Numbered (n + k * ls.length) spare := by
  induction ls generalizing b n with
  | nil => exact h
  | cons l ls ih =>
    have hcount : n + k * (l :: ls).length = n + k + k * ls.length := by
      rw [List.length_cons, Nat.mul_succ]
      omega
    rw [hcount] at hroom ⊢
    have hhead := h.expand main behind (hls l List.mem_cons_self) hk (by omega)
    refine ih hhead (fun l' hl' ↦ ?_) hroom
    exact (labels_expand_sublist main behind b l).subset (hls l' (List.mem_cons_of_mem l hl'))

end Numbered

end Body

end CilSpan
