import CilSpan.Proofs.Span.Edited

namespace CilSpan

namespace Body

variable {b c d : Body} {l : Label} {m n k : Nat} {ops : List Op} {main : Op → Op}
  {behind : Op → List Op} {ls : List Label}

def upcoming (b : Body) (n : Nat) : Label := ⟨b.next + .ofNat n⟩

def stamp (b : Body) (n : Nat) (ops : List Op) : List Instr :=
  ops.zipIdx.map fun (op, k) ↦ ⟨b.upcoming (n + k), op⟩

def labelsFrom (b : Body) (n count : Nat) : List Label :=
  (List.range count).map fun k ↦ b.upcoming (n + k)

/-- What an instruction gives once those with the labels `ls` are expanded one after the other, for
which `k` new instructions are made each time. -/
def grown (b : Body) (main : Op → Op) (behind : Op → List Op) (n k : Nat) (ls : List Label)
    (i : Instr) : List Instr :=
  if i.label ∈ ls then
    ⟨i.label, main i.op⟩ :: b.stamp (n + k * ls.idxOf i.label) (behind i.op)
  else [i]

theorem coming_eq_labelsFrom (b : Body) (n : Nat) : b.coming n = b.labelsFrom 0 n := by
  simp only [coming, labelsFrom, upcoming, Nat.zero_add]

theorem labelsFrom_one (b : Body) (n : Nat) : b.labelsFrom n 1 = [b.upcoming n] := rfl

theorem labelsFrom_add (b : Body) (n k m : Nat) :
    b.labelsFrom n (k + m) = b.labelsFrom n k ++ b.labelsFrom (n + k) m := by
  simp only [labelsFrom, List.range_add, List.map_append, List.map_map, Function.comp_def,
    Nat.add_assoc]

theorem stamp_cons (b : Body) (n : Nat) (op : Op) (ops : List Op) :
    b.stamp n (op :: ops) = ⟨b.upcoming n, op⟩ :: b.stamp (n + 1) ops := by
  simp only [stamp, List.zipIdx_cons', List.map_cons, List.map_map, Function.comp_def,
    Prod.map, Nat.add_zero, id_eq, Nat.add_assoc, Nat.add_comm 1]

theorem map_label_stamp (b : Body) (n : Nat) (ops : List Op) :
    (b.stamp n ops).map Instr.label = b.labelsFrom n ops.length := by
  induction ops generalizing n with
  | nil => rfl
  | cons op ops ih =>
    rw [stamp_cons, List.map_cons, ih, List.length_cons, Nat.add_comm ops.length, labelsFrom_add]
    rfl

theorem map_op_stamp (b : Body) (n : Nat) (ops : List Op) :
    (b.stamp n ops).map Instr.op = ops := by
  simp only [stamp, List.map_map, Function.comp_def, List.zipIdx_map_fst]

theorem createAll_eq_stamp (hnext : c.next = b.next + .ofNat n) (ops : List Op) :
    (c.createAll ops).1 = b.stamp n ops := by
  induction ops generalizing c n with
  | nil => rfl
  | cons op ops ih =>
    rw [stamp_cons, createAll, create]
    refine congrArg₂ List.cons ?_ (ih ?_)
    · rw [freshLabel, hnext, upcoming]
    · rw [hnext, UInt32.ofNat_add, UInt32.add_assoc]
      rfl

theorem next_createAll (hnext : c.next = b.next + .ofNat n) (ops : List Op) :
    (c.createAll ops).2.next = b.next + .ofNat (n + ops.length) := by
  rw [createAll_eq, hnext, UInt32.ofNat_add, UInt32.add_assoc]

theorem grown_of_mem {i : Instr} (h : i.label ∈ ls) : b.grown main behind n k ls i =
    ⟨i.label, main i.op⟩ :: b.stamp (n + k * ls.idxOf i.label) (behind i.op) := if_pos h

theorem grown_of_not_mem {i : Instr} (h : i.label ∉ ls) : b.grown main behind n k ls i = [i] :=
  if_neg h

/-- For all instructions but the first one to be expanded, that one counts as made. -/
theorem grown_cons_of_ne {i : Instr} (h : i.label ≠ l) :
    b.grown main behind n k (l :: ls) i = b.grown main behind (n + k) k ls i := by
  have hcount : n + k * (ls.idxOf i.label + 1) = n + k + k * ls.idxOf i.label := by
    rw [Nat.mul_succ]
    omega
  simp only [grown, List.mem_cons, h, false_or, List.idxOf_cons_ne ls (Ne.symm h),
    Nat.succ_eq_add_one, hcount]

theorem flatMap_grown_of_not_mem {code : List Instr} (h : ∀ i ∈ code, i.label ∉ ls) :
    code.flatMap (b.grown main behind n k ls) = code := by
  rw [List.flatMap_congr fun i hi ↦ grown_of_not_mem (h i hi)]
  exact List.flatMap_singleton' code

theorem expand_eq (main : Op → Op) (behind : Op → List Op) (hnext : c.next = b.next + .ofNat n)
    (hl : l ∈ c.labels) : ∃ before op after, c.code = before ++ ⟨l, op⟩ :: after ∧
    (c.expand main behind l).code = before ++ ⟨l, main op⟩ :: b.stamp n (behind op) ++ after ∧
    (c.expand main behind l).next = b.next + .ofNat (n + (behind op).length) := by
  cases hcut : cut? l c.code with
  | none =>
    obtain ⟨i, hi, rfl⟩ := List.mem_map.1 hl
    exact absurd rfl (cut?_eq_none.1 hcut i hi)
  | some parts =>
    obtain ⟨before, op, after⟩ := parts
    refine ⟨before, op, after, (cut?_eq_some.1 hcut).1, ?_, ?_⟩
    · simp only [expand, hcut, createAll_eq_stamp hnext]
    · simp only [expand, hcut, next_createAll hnext]

/-- One pass after the first expansion is one pass over the code that it has changed, as long as no
label is there twice. -/
theorem flatMap_grown_expanded {before after : List Instr} {op : Op} (hl : l ∉ ls)
    (hmem : ∀ l' ∈ ls, l' ∈ before.map Instr.label ++ l :: after.map Instr.label)
    (hn : ((before ++ ⟨l, main op⟩ :: b.stamp n (behind op) ++ after).map Instr.label).Nodup) :
    (before ++ ⟨l, main op⟩ :: b.stamp n (behind op) ++ after).flatMap
        (b.grown main behind (n + k) k ls) =
      (before ++ ⟨l, op⟩ :: after).flatMap (b.grown main behind n k (l :: ls)) := by
  -- No other old instruction has the first label, and none of the new ones is to be expanded.
  rw [List.append_assoc, List.cons_append, List.map_append, List.map_cons, List.map_append,
    List.nodup_middle, List.nodup_cons] at hn
  obtain ⟨hfirst, hdistinct⟩ := hn
  simp only [List.mem_append, List.mem_map, not_or, not_exists, not_and] at hfirst
  obtain ⟨hbefore, -, hafter⟩ := hfirst
  obtain ⟨-, hnew, hapart⟩ := List.nodup_append'.1 hdistinct
  obtain ⟨-, -, hapart'⟩ := List.nodup_append'.1 hnew
  have hstamp : ∀ i ∈ b.stamp n (behind op), i.label ∉ ls := by
    intro i hi hin
    have hi := List.mem_map_of_mem (f := Instr.label) hi
    have hold := hmem _ hin
    rw [List.mem_append, List.mem_cons] at hold
    obtain hb | he | ha := hold
    · exact hapart hb (List.mem_append_left _ hi)
    · exact hl (he ▸ hin)
    · exact hapart' hi ha
  have hrest : ∀ code : List Instr, (∀ i ∈ code, i.label ≠ l) →
      code.flatMap (b.grown main behind n k (l :: ls)) =
        code.flatMap (b.grown main behind (n + k) k ls) := fun code h ↦
    List.flatMap_congr fun i hi ↦ grown_cons_of_ne (h i hi)
  simp only [List.flatMap_append, List.flatMap_cons, hrest before hbefore, hrest after hafter,
    flatMap_grown_of_not_mem hstamp, grown_of_not_mem (i := ⟨l, main op⟩) hl,
    grown_of_mem (i := ⟨l, op⟩) List.mem_cons_self, List.idxOf_cons_self, Nat.mul_zero,
    Nat.add_zero, List.singleton_append, List.append_assoc]

/-- Expanding the instructions with some labels one by one is one pass over the code. -/
theorem foldl_expand_eq (hnext : c.next = b.next + .ofNat n) (hls : ls.Nodup)
    (hmem : ∀ l ∈ ls, l ∈ c.labels) (hk : ∀ op, (behind op).length = k)
    (hn : (ls.foldl (expand main behind) c).labels.Nodup) :
    (ls.foldl (expand main behind) c).code = c.code.flatMap (b.grown main behind n k ls) ∧
    (ls.foldl (expand main behind) c).next = b.next + .ofNat (n + k * ls.length) ∧
    (ls.foldl (expand main behind) c).labels.Perm (b.labelsFrom n (k * ls.length) ++ c.labels) := by
  -- The first expansion leaves code in which the rest are found by their labels as before; only the
  -- number of labels handed out has grown, so `n` has to vary.
  induction ls generalizing c n with
  | nil =>
    refine ⟨(flatMap_grown_of_not_mem fun _ _ ↦ List.not_mem_nil).symm, hnext, ?_⟩
    exact List.Perm.refl _
  | cons l ls ih =>
    obtain ⟨hl, hls⟩ := List.nodup_cons.1 hls
    obtain ⟨hmem, hmem'⟩ := List.forall_mem_cons.1 hmem
    obtain ⟨before, op, after, hc, hd, hdnext⟩ := expand_eq main behind hnext hmem
    rw [hk] at hdnext
    obtain ⟨hcode, hnext', hperm⟩ := ih hdnext hls (fun l' hl' ↦
      (labels_expand_sublist main behind c l).subset (hmem' l' hl')) hn
    rw [List.foldl_cons, List.length_cons, Nat.mul_succ]
    refine ⟨?_, ?_, ?_⟩
    · have hnew := hn.sublist (labels_foldl_expand_sublist main behind (c.expand main behind l) ls)
      rw [labels, hd] at hnew
      rw [hcode, hd, hc]
      refine flatMap_grown_expanded hl (fun l' hl' ↦ ?_) hnew
      simpa only [labels, hc, List.map_append, List.map_cons] using hmem' l' hl'
    · rw [hnext']
      congr 2
      omega
    · rw [Nat.add_comm _ k, labelsFrom_add]
      refine hperm.trans (List.perm_iff_count.2 fun l' ↦ ?_)
      simp only [labels, hd, hc, List.map_append, List.map_cons, map_label_stamp, hk,
        List.count_append, List.count_cons]
      omega

end Body

structure Stamped (b : Body) (n : Nat) (c : Body) : Prop where
  next : c.next = b.next + .ofNat n
  labels : c.labels.Perm (b.coming n ++ b.labels)

namespace Stamped

variable {b c d : Body} {n k : Nat} {ops : List Op}

theorem refl (b : Body) : Stamped b 0 b := ⟨(UInt32.add_zero b.next).symm, .refl b.labels⟩

theorem grow (h : Stamped b n c) (hnext : d.next = b.next + .ofNat (n + k))
    (hlabels : d.labels.Perm (b.labelsFrom n k ++ c.labels)) : Stamped b (n + k) d := by
  refine ⟨hnext, (hlabels.trans (h.labels.append_left _)).trans ?_⟩
  rw [Body.coming_eq_labelsFrom, Body.coming_eq_labelsFrom, Body.labelsFrom_add, Nat.zero_add,
    ← List.append_assoc]
  exact List.perm_append_comm.append_right b.labels

theorem insert {index : Nat} (h : Stamped b n c) (hd : Edit.insert index ops c = .ok () d) :
    Stamped b (n + ops.length) d ∧
      d.code = c.code.take index ++ b.stamp n ops ++ c.code.drop index := by
  have hd := Edit.insert_eq_ok hd
  rw [Body.createAll_eq_stamp h.next, Body.next_createAll h.next] at hd
  subst hd
  have hperm := perm_labels_splice c.code (b.stamp n ops) index
  rw [Body.map_label_stamp] at hperm
  exact ⟨h.grow rfl hperm, rfl⟩

theorem insertBeforeLast {count : Nat} {front last : List Instr} (h : Stamped b n c)
    (hc : c.code = front ++ last) (hcount : count = last.length)
    (hd : Edit.insertBeforeLast count ops c = .ok () d) :
    Stamped b (n + ops.length) d ∧ d.code = front ++ b.stamp n ops ++ last := by
  have hcode := Edit.insertBeforeLast_eq_ok hc hcount hd
  unfold Edit.insertBeforeLast at hd
  split at hd
  · rw [Body.createAll_eq_stamp h.next] at hcode
    exact ⟨(h.insert hd).1, congrArg Body.code hcode⟩
  · cases hd

end Stamped

end CilSpan
