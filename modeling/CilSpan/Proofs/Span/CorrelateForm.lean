import CilSpan.Proofs.Span.Edits
import CilSpan.Span.Correlate
import Mathlib.Data.List.Nodup

namespace CilSpan

theorem filter_mem_of_sublist {ls xs : List Label} (h : ls.Sublist xs) (hn : xs.Nodup) :
    xs.filter (· ∈ ls) = ls := by
  induction h with
  | slnil => rfl
  | @cons ls xs a h ih =>
    obtain ⟨ha, hn⟩ := List.nodup_cons.1 hn
    rw [List.filter_cons_of_neg (by simpa using fun hm ↦ ha (h.subset hm)), ih hn]
  | @cons_cons ls xs a h ih =>
    obtain ⟨ha, hn⟩ := List.nodup_cons.1 hn
    rw [List.filter_cons_of_pos (by simp)]
    refine congrArg (a :: ·) ((List.filter_congr fun l hl ↦ ?_).trans (ih hn))
    have hne : l ≠ a := by
      rintro rfl
      exact ha hl
    simp [hne]

namespace Op

theorem isLeave_iff {op : Op} :
    op.isLeave = true ↔ ∃ width target, op = .branch .leave width target := by
  constructor
  · intro h
    unfold isLeave at h
    split at h
    · exact ⟨_, _, rfl⟩
    · cases h
  · rintro ⟨width, target, rfl⟩
    rfl

theorem isLeave_lengthen (op : Op) : op.lengthen.isLeave = op.isLeave := by
  cases op with
  | branch jump width target => cases jump <;> rfl
  | _ => rfl

theorem loadsState_lengthen (op : Op) (marker : String) :
    op.lengthen.loadsState marker = op.loadsState marker := by
  cases op <;> rfl

theorem callsNamed_lengthen (op : Op) (name : String) :
    op.lengthen.callsNamed name = op.callsNamed name := by
  cases op <;> rfl

theorem lengthen_eq_ldarg {op : Op} {index : UInt16} :
    op.lengthen = .ldarg index ↔ op = .ldarg index := by
  cases op <;> simp [lengthen, withWidth]

end Op

namespace Body

variable {b : Body} {pattern : StepPattern} {exits : Exits} {entry : Nat}

theorem stepEntry_lengthen (b : Body) (pattern : StepPattern) :
    b.lengthen.stepEntry pattern = b.stepEntry pattern := by
  have hfind : (b.lengthen.code.findIdx fun i ↦ i.op.loadsState pattern.stateMarker) =
      b.code.findIdx fun i ↦ i.op.loadsState pattern.stateMarker := by
    simp only [lengthen, List.findIdx_map, Function.comp_def, Op.loadsState_lengthen]
  have hload (n : Nat) : (b.lengthen.code[n]?.map Instr.op = some (.ldarg 0)) =
      (b.code[n]?.map Instr.op = some (.ldarg 0)) := by
    rw [getElem?_lengthen]
    cases b.code[n]? with
    | none => rfl
    | some i => simp [Op.lengthen_eq_ldarg]
  unfold stepEntry
  rw [hfind]
  generalize (b.code.findIdx fun i ↦ i.op.loadsState pattern.stateMarker) = position
  simp only [getElem?_lengthen]
  cases b.code[position]? with
  | none => rfl
  | some i =>
    cases position with
    | zero => rfl
    | succ n =>
      have hn := hload n
      rw [getElem?_lengthen] at hn
      simp only [Option.map_some, hn]

theorem stepEntry_lt (hb : b.code ≠ []) (h : b.stepEntry pattern = .ok entry) :
    entry < b.size := by
  unfold stepEntry at h
  dsimp only at h
  split at h
  · injection h with h
    exact h ▸ List.length_pos_iff.2 hb
  · rename_i hi
    have hlt := (List.getElem?_eq_some_iff.1 hi).1
    split at h
    · cases h
    · rename_i before hbefore
      rw [hbefore] at hlt
      split at h
      · injection h with h
        subst h
        exact Nat.lt_of_succ_lt hlt
      · cases h

theorem leaves_lengthen (b : Body) : b.lengthen.leaves =
    b.leaves.map fun (i, n) ↦ ({ i with op := i.op.lengthen }, n) := by
  simp only [leaves, lengthen, List.zipIdx_map, List.filter_map, Function.comp_def,
    Prod.map, Op.isLeave_lengthen]
  rfl

theorem funnel?_lengthen (b : Body) : b.lengthen.funnel? = b.funnel? := by
  unfold funnel?
  rw [leaves_lengthen, List.getLast?_map]
  cases b.leaves.getLast? with
  | none => rfl
  | some i =>
    obtain ⟨i, n⟩ := i
    cases h : b.code[n + 1]? <;> simp [getElem?_lengthen, h]

theorem completes_lengthen (b : Body) (pattern : StepPattern) (funnel : Label) (i : Instr)
    (n : Nat) : b.lengthen.completes pattern funnel { i with op := i.op.lengthen } n =
      b.completes pattern funnel i n := by
  simp only [completes, faultNear, lengthen, Op.target?_lengthen, ← List.map_take, ← List.map_drop,
    List.any_map, Function.comp_def, Op.callsNamed_lengthen]

theorem exits_lengthen (b : Body) (pattern : StepPattern) :
    b.lengthen.exits pattern = b.exits pattern := by
  unfold exits
  rw [funnel?_lengthen, leaves_lengthen]
  cases b.funnel? with
  | none => rfl
  | some funnel =>
    simp only [List.partition_eq_filter_filter, List.filter_map, Function.comp_def,
      completes_lengthen, List.isEmpty_map, List.map_map]

theorem leaves_inj (hb : b.labels.Nodup) {i j : Instr × Nat} (hi : i ∈ b.code.zipIdx)
    (hj : j ∈ b.code.zipIdx) (h : i.1.label = j.1.label) : i = j := by
  have hn : (b.code.zipIdx.map fun i ↦ i.1.label).Nodup := by
    have hmap : (b.code.zipIdx.map fun i ↦ i.1.label) = b.labels := by
      rw [labels, ← List.zipIdx_map_fst 0 b.code, List.map_map]
      simp only [List.zipIdx_map_fst]
      rfl
    exact hmap ▸ hb
  exact List.inj_on_of_nodup_map hn hi hj h

theorem exits_eq_ok (hb : b.labels.Nodup) (h : b.exits pattern = .ok exits) :
    exits.completions.Sublist b.labels ∧
      (∀ i ∈ b.code, i.label ∈ exits.completions → i.op.isLeave = true) ∧
      ∀ l ∈ exits.suspensions, l ∉ exits.completions := by
  unfold Body.exits at h
  split at h
  · cases h
  · rename_i funnel _
    rw [List.partition_eq_filter_filter] at h
    dsimp only at h
    split at h
    · cases h
    · injection h with h
      subst h
      have hsub : ((b.leaves.filter fun i ↦ b.completes pattern funnel i.1 i.2).map
          fun i ↦ i.1.label).Sublist b.labels := by
        have h₁ : (b.leaves.filter fun i ↦ b.completes pattern funnel i.1 i.2).Sublist
            b.code.zipIdx := List.filter_sublist.trans List.filter_sublist
        have h₂ := (h₁.map Prod.fst).map Instr.label
        rw [List.zipIdx_map_fst, List.map_map] at h₂
        exact h₂
      refine ⟨hsub, ?_, ?_⟩
      · intro i hi hl
        obtain ⟨j, hj, he⟩ := List.mem_map.1 hl
        have hj' := List.mem_filter.1 (List.mem_filter.1 hj).1
        obtain ⟨n, hn⟩ := List.getElem?_of_mem hi
        have hin : (i, n) ∈ b.code.zipIdx := List.mk_mem_zipIdx_iff_getElem?.2 hn
        obtain rfl := leaves_inj hb hj'.1 hin he
        exact hj'.2
      · intro l hs hc
        obtain ⟨i, hi, rfl⟩ := List.mem_map.1 hs
        obtain ⟨j, hj, he⟩ := List.mem_map.1 hc
        obtain ⟨hi, hni⟩ := List.mem_filter.1 hi
        obtain ⟨hj, hyj⟩ := List.mem_filter.1 hj
        obtain rfl := leaves_inj hb (List.mem_filter.1 hj).1 (List.mem_filter.1 hi).1 he
        simp [hyj] at hni

/-- A completing exit is a `leave` that completes, and nothing else. -/
theorem mem_completions_iff (hb : b.labels.Nodup) (h : b.exits pattern = .ok exits) {n : Nat}
    {i : Instr} (hi : b.code[n]? = some i) : i.label ∈ exits.completions ↔
      i.op.isLeave = true ∧ b.completes pattern exits.funnel i n = true := by
  have hin : (i, n) ∈ b.code.zipIdx := List.mk_mem_zipIdx_iff_getElem?.2 hi
  unfold Body.exits at h
  split at h
  · cases h
  · rename_i funnel _
    rw [List.partition_eq_filter_filter] at h
    dsimp only at h
    split at h
    · cases h
    · injection h with h
      subst h
      constructor
      · intro hl
        obtain ⟨j, hj, he⟩ := List.mem_map.1 hl
        obtain ⟨hleave, hj'⟩ := List.mem_filter.1 hj
        obtain ⟨hj, hleave⟩ := List.mem_filter.1 hleave
        obtain rfl := leaves_inj hb hj hin he
        exact ⟨hleave, hj'⟩
      · rintro ⟨hleave, hc⟩
        exact List.mem_map.2 ⟨(i, n), List.mem_filter.2 ⟨List.mem_filter.2 ⟨hin, hleave⟩, hc⟩, rfl⟩

end Body

namespace Edit

variable {b c : Body}

theorem ofExcept_eq_ok {α : Type} {x : Except Refusal α} {v : α} (h : ofExcept x b = .ok v c) :
    c = b ∧ x = .ok v := by
  cases x with
  | error e => cases h
  | ok a =>
    injection h with ha hb
    exact ⟨hb.symm, congrArg _ ha⟩

end Edit

structure Woven (b c : Body) (entry : Nat) (completions : List Label) (id : Int32) (name : String)
    (hooks : Hooks) (xs : List Piece) : Prop where
  code : c.code = rebuild xs []
  spliced : Spliced entry (correlatedCall id name hooks.asyncEnter)
    (fun i ↦ if i.label ∈ completions then .nop else i.op)
    (fun i ↦ if i.label ∈ completions then correlatedCall id name hooks.asyncExit ++ [i.op] else [])
    b.code xs
  mem_labels : ∀ l ∈ completions, l ∈ b.labels
  leave : ∀ i ∈ b.code, i.label ∈ completions → i.op.isLeave = true
  locals : c.locals = b.locals
  regions : c.regions = b.regions

section

variable {b b' : Body} {id : Int32} {name : String} {hooks : Hooks} {pattern : StepPattern}
  {exits : Exits}

theorem edit_correlate (h : b.correlate id name hooks pattern = (.ok exits, b')) :
    Edit.correlate id name hooks pattern b = .ok exits b' := by
  unfold Body.correlate at h
  split at h
  · rename_i hr
    obtain ⟨h₁, h₂⟩ := Prod.mk.inj h
    rw [hr, Except.ok.inj h₁, h₂]
  · cases h

/-- The edits of a correlation that is not refused, one by one. -/
theorem edits_of_correlate (h : b.correlate id name hooks pattern = (.ok exits, b')) :
    ∃ entry c, b.code ≠ [] ∧ b.hooked? hooks = none ∧ b.lengthen.exits pattern = .ok exits ∧
      b.stepEntry pattern = .ok entry ∧
      Edit.insert entry (correlatedCall id name hooks.asyncEnter) b.lengthen = .ok () c ∧
      Edit.finish (exits.completions.foldl (Body.expand (fun _ ↦ .nop)
        fun op ↦ correlatedCall id name hooks.asyncExit ++ [op]) c) = .ok () b' := by
  have he := edit_correlate h
  unfold Edit.correlate at he
  obtain ⟨⟨⟩, d, hd, h₁⟩ := Edit.bind_eq_ok he
  obtain ⟨rfl, hne, hhook⟩ := Edit.enter_eq_ok hd
  rw [Edit.modify_bind, Edit.get_bind] at h₁
  obtain ⟨exits', e, hx, h₂⟩ := Edit.bind_eq_ok h₁
  obtain ⟨rfl, hexits⟩ := Edit.ofExcept_eq_ok hx
  rw [Edit.get_bind] at h₂
  obtain ⟨entry, g, hg, h₃⟩ := Edit.bind_eq_ok h₂
  obtain ⟨rfl, hentry⟩ := Edit.ofExcept_eq_ok hg
  obtain ⟨⟨⟩, c, hc, h₄⟩ := Edit.bind_eq_ok h₃
  rw [Edit.modify_bind] at h₄
  obtain ⟨⟨⟩, k, hk, h₅⟩ := Edit.bind_eq_ok h₄
  injection h₅ with h₆ h₇
  subst h₆ h₇
  have hfold : (fun (b : Body) l ↦ (b.insertAhead l (correlatedCall id name hooks.asyncExit)).2) =
      Body.expand (fun _ ↦ .nop) fun op ↦ correlatedCall id name hooks.asyncExit ++ [op] :=
    funext fun b ↦ funext fun l ↦ b.insertAhead_eq_expand l _
  rw [Body.stepEntry_lengthen] at hentry
  exact ⟨entry, c, hne, hhook, hexits, hentry, hc, hfold ▸ hk⟩

theorem exits_of_correlate (h : b.correlate id name hooks pattern = (.ok exits, b')) :
    b.exits pattern = .ok exits := by
  obtain ⟨entry, c, -, -, hexits, -⟩ := edits_of_correlate h
  rw [← Body.exits_lengthen, hexits]

theorem nodup_labels_of_correlate (h : b.correlate id name hooks pattern = (.ok exits, b')) :
    b.labels.Nodup := by
  obtain ⟨entry, c, -, -, -, -, hc, hfinish⟩ := edits_of_correlate h
  obtain ⟨hlen, hflaw⟩ := Edit.finish_eq_ok hfinish
  refine (Body.sound_of_lengthen_eq hlen hflaw).nodup.sublist ?_
  rw [← Body.labels_lengthen b]
  exact (Edit.labels_sublist_of_insert hc).trans (Body.labels_foldl_expand_sublist _ _ c _)

/-- An entry and exits at some of the labels, one after the other, are woven in in one pass. -/
theorem exists_woven {c : Body} {entry : Nat} {completions : List Label} (hn : b.labels.Nodup)
    (hsub : completions.Sublist b.labels)
    (hleave : ∀ i ∈ b.code, i.label ∈ completions → i.op.isLeave = true) (hlt : entry < b.size)
    (hc : Edit.insert entry (correlatedCall id name hooks.asyncEnter) b = .ok () c)
    (hnodup : (completions.foldl (Body.expand (fun _ ↦ .nop)
      fun op ↦ correlatedCall id name hooks.asyncExit ++ [op]) c).labels.Nodup) :
    ∃ xs, Woven b (completions.foldl (Body.expand (fun _ ↦ .nop)
      fun op ↦ correlatedCall id name hooks.asyncExit ++ [op]) c) entry completions id name hooks
        xs := by
  have hc := Edit.insert_eq_ok hc
  -- The new entry first, in one pass over the old code.
  generalize hrun : (b.createAll (correlatedCall id name hooks.asyncEnter)).1 = run at hc
  have hops : run.map Instr.op = correlatedCall id name hooks.asyncEnter :=
    hrun ▸ Body.map_op_createAll _ _
  have hxs := (Spliced.plain entry b.code).putAhead run
  have hcode : c.code = rebuild ((b.code.map .plain).modify entry (·.putAhead run)) [] := by
    have hlt' : entry < (b.code.map Piece.plain).length := by
      rw [List.length_map]
      exact hlt
    rw [hc, ← splice_arrival run hlt', arrival_plain, rebuild_plain, List.append_nil]
  -- Then all exits, which are the instructions with the labels of the completions.
  have hsel : (b.code.filter fun i ↦ decide (i.label ∈ completions)).map Instr.label =
      completions := by
    have hfilter := filter_mem_of_sublist hsub hn
    rw [Body.labels, List.filter_map] at hfilter
    exact hfilter
  obtain ⟨xs, hxscode, hspliced⟩ := hxs.foldl_expand (m := fun _ ↦ .nop)
    (f := fun op ↦ correlatedCall id name hooks.asyncExit ++ [op]) hcode (hsel.symm ▸ hnodup)
  rw [hsel] at hxscode
  rw [hops] at hspliced
  obtain ⟨code, next, hframe⟩ := Body.foldl_expand_frame (fun _ ↦ .nop)
    (fun op ↦ correlatedCall id name hooks.asyncExit ++ [op]) c completions
  refine ⟨xs, hxscode, by simpa only [decide_eq_true_eq] using hspliced,
    fun l hl ↦ hsub.subset hl, hleave, ?_, ?_⟩
  · rw [hframe, hc]
  · rw [hframe, hc]

theorem correlate_eq_ok (hb : b.labels.Nodup)
    (h : b.correlate id name hooks pattern = (.ok exits, b')) :
    ∃ c xs entry, b'.lengthen = c.lengthen ∧ c.Sound ∧ b.hooked? hooks = none ∧
      b.stepEntry pattern = .ok entry ∧ (∀ l ∈ exits.suspensions, l ∉ exits.completions) ∧
      Woven b.lengthen c entry exits.completions id name hooks xs := by
  obtain ⟨entry, g, hne, hhook, hexits, hentry, hg, hfinish⟩ := edits_of_correlate h
  obtain ⟨hlen, hflaw⟩ := Edit.finish_eq_ok hfinish
  have hsound := Body.sound_of_lengthen_eq hlen hflaw
  have hnd : b.lengthen.labels.Nodup := (Body.labels_lengthen b).symm ▸ hb
  obtain ⟨hsub, hleave, hdisj⟩ := Body.exits_eq_ok hnd hexits
  have hlt : entry < b.lengthen.size := (Body.size_lengthen b).symm ▸ Body.stepEntry_lt hne hentry
  obtain ⟨xs, hw⟩ := exists_woven hnd hsub hleave hlt hg hsound.nodup
  exact ⟨_, xs, entry, hlen, hsound, hhook, hentry, hdisj, hw.code, hw.spliced, hw.mem_labels,
    hw.leave, hw.locals, hw.regions⟩

end

end CilSpan
