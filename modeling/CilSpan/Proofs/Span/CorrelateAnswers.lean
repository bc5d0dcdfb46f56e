import CilSpan.Proofs.Span.CorrelateCause
import CilSpan.Proofs.Span.Edited
import CilSpan.Proofs.Span.Reasons

namespace CilSpan

namespace Body

def LastLeave (b : Body) (n : Nat) : Prop :=
  (∃ i, b.code[n]? = some i ∧ i.op.isLeave = true) ∧
    ∀ m i, n < m → b.code[m]? = some i → i.op.isLeave = false

/-- A `leave` at the position goes to the funnel, or stands shortly behind a fault report. -/
def EndsAt (b : Body) (pattern : StepPattern) (funnel : Label) (n : Nat) : Prop :=
  ∃ i, b.code[n]? = some i ∧ i.op.isLeave = true ∧ (i.op.target? = some funnel ∨
    ∃ m, b.reports pattern m = true ∧ m < n ∧ n ≤ m + pattern.lookback.toNat)

def FirstLoad (b : Body) (pattern : StepPattern) (n : Nat) : Prop :=
  (∃ i, b.code[n]? = some i ∧ i.op.loadsState pattern.stateMarker = true) ∧
    ∀ m i, m < n → b.code[m]? = some i → i.op.loadsState pattern.stateMarker = false

/-- For what reasons a step is not correlated, in the order in which they count. -/
def correlateReasons (b : Body) (hooks : Hooks) (pattern : StepPattern) : List (Refusal → Prop) :=
  b.entryReasons hooks ++
    [fun e ↦ e = .noFunnel ∧ ∀ n, b.LastLeave n → n + 1 = b.size,
      fun e ↦ ∃ n i, e = .noCompletion i.label ∧ b.LastLeave n ∧ b.code[n + 1]? = some i ∧
        ∀ m, ¬b.EndsAt pattern i.label m,
      fun e ↦ ∃ n i, e = .oddStateLoad i.label ∧ b.FirstLoad pattern n ∧ b.code[n]? = some i ∧
        ∀ k, n = k + 1 → b.code[k]?.map Instr.op ≠ some (.ldarg 0)]

def leaveLabels (b : Body) : List Label := (b.code.filter fun i ↦ i.op.isLeave).map Instr.label

variable {b : Body} {pattern : StepPattern} {exits : Exits} {funnel : Label} {i j : Instr}
  {m n : Nat}

theorem faultNear_iff : b.faultNear pattern n = true ↔
    ∃ m, b.reports pattern m = true ∧ m < n ∧ n ≤ m + pattern.lookback.toNat := by
  refine ⟨exists_of_faultNear, fun ⟨m, hr, hm, hn⟩ ↦ ?_⟩
  obtain ⟨i, hi, hc⟩ := (Option.any_eq_true ..).1 hr
  refine List.any_eq_true.2 ⟨i, ?_, hc⟩
  refine List.mem_of_getElem? (i := m - (n - pattern.lookback.toNat)) ?_
  rw [List.getElem?_drop, show n - pattern.lookback.toNat + (m - (n - pattern.lookback.toNat)) = m
    by omega, List.getElem?_take_of_lt hm, hi]

theorem mem_leaves_iff : (i, n) ∈ b.leaves ↔ b.code[n]? = some i ∧ i.op.isLeave = true := by
  rw [leaves, List.mem_filter, List.mk_mem_zipIdx_iff_getElem?]

theorem pairwise_leaves (b : Body) : b.leaves.Pairwise fun x y ↦ x.2 < y.2 := by
  have hall : b.code.zipIdx.Pairwise fun x y ↦ x.2 < y.2 := by
    rw [← List.pairwise_map (f := Prod.snd) (R := (· < ·)), List.zipIdx_map_snd]
    exact List.pairwise_lt_range'
  exact hall.sublist List.filter_sublist

theorem lastLeave_iff : b.LastLeave n ↔ ∃ i, b.leaves.getLast? = some (i, n) := by
  have hlater {i m} {ys : List (Instr × Nat)} {last : Instr × Nat} (hys : b.leaves = ys ++ [last])
      (hi : (i, m) ∈ b.leaves) : (i, m) = last ∨ m < last.2 := by
    have hpair := b.pairwise_leaves
    rw [hys] at hi hpair
    obtain hi | hi := List.mem_append.1 hi
    · exact .inr ((List.pairwise_append.1 hpair).2.2 _ hi _ (List.mem_singleton_self _))
    · exact .inl (List.mem_singleton.1 hi)
  constructor
  · rintro ⟨⟨i, hi, hleave⟩, hlast⟩
    have hmem := mem_leaves_iff.2 ⟨hi, hleave⟩
    obtain ⟨⟨j, m⟩, hget⟩ := Option.ne_none_iff_exists'.1 fun hnone ↦
      List.ne_nil_of_mem hmem (List.getLast?_eq_none_iff.1 hnone)
    obtain ⟨ys, hys⟩ := List.getLast?_eq_some_iff.1 hget
    obtain heq | hlt := hlater hys hmem
    · exact ⟨i, heq ▸ hget⟩
    · have hj := mem_leaves_iff.1 (List.mem_of_getLast? hget)
      rw [hlast m j hlt hj.1] at hj
      cases hj.2
  · rintro ⟨i, hget⟩
    obtain ⟨ys, hys⟩ := List.getLast?_eq_some_iff.1 hget
    refine ⟨⟨i, mem_leaves_iff.1 (List.mem_of_getLast? hget)⟩, fun m j hm hj ↦ ?_⟩
    rw [← Bool.not_eq_true]
    intro hleave
    obtain heq | hlt := hlater hys (mem_leaves_iff.2 ⟨hj, hleave⟩)
    · have hmn : m = n := congrArg Prod.snd heq
      omega
    · exact Nat.lt_asymm hm hlt

theorem funnel?_of_lastLeave (h : b.LastLeave n) :
    b.funnel? = b.code[n + 1]?.map Instr.label := by
  obtain ⟨i, hi⟩ := lastLeave_iff.1 h
  rw [funnel?, hi]
  cases hj : b.code[n + 1]? <;> simp [hj]

/-- Whether there is a funnel. -/
theorem funnel?_eq_none_iff : b.funnel? = none ↔ ∀ n, b.LastLeave n → n + 1 = b.size := by
  constructor
  · intro hnone n hn
    rw [funnel?_of_lastLeave hn, Option.map_eq_none_iff, List.getElem?_eq_none_iff] at hnone
    obtain ⟨⟨i, hi, -⟩, -⟩ := hn
    have hlt := (List.getElem?_eq_some_iff.1 hi).1
    exact Nat.le_antisymm hlt hnone
  · intro h
    cases hget : b.leaves.getLast? with
    | none =>
      rw [funnel?, hget]
      rfl
    | some last =>
      have hn := lastLeave_iff.2 ⟨last.1, hget⟩
      rw [funnel?_of_lastLeave hn, h _ hn, Option.map_eq_none_iff, List.getElem?_eq_none_iff]
      exact Nat.le_refl _

theorem funnel?_eq_some_iff : b.funnel? = some funnel ↔
    ∃ n i, b.LastLeave n ∧ b.code[n + 1]? = some i ∧ i.label = funnel := by
  constructor
  · intro h
    cases hget : b.leaves.getLast? with
    | none =>
      rw [funnel?, hget] at h
      cases h
    | some last =>
      have hn := lastLeave_iff.2 ⟨last.1, hget⟩
      rw [funnel?_of_lastLeave hn, Option.map_eq_some_iff] at h
      obtain ⟨i, hi, hl⟩ := h
      exact ⟨last.2, i, hn, hi, hl⟩
  · rintro ⟨n, i, hn, hi, rfl⟩
    rw [funnel?_of_lastLeave hn, hi]
    rfl

theorem exists_endsAt_iff : (∃ n, b.EndsAt pattern funnel n) ↔
    ∃ x ∈ b.leaves, b.completes pattern funnel x.1 x.2 = true := by
  have hcompletes (i : Instr) (n : Nat) : b.completes pattern funnel i n = true ↔
      i.op.target? = some funnel ∨
        ∃ m, b.reports pattern m = true ∧ m < n ∧ n ≤ m + pattern.lookback.toNat := by
    rw [completes, Bool.or_eq_true, decide_eq_true_eq, faultNear_iff]
  constructor
  · rintro ⟨n, i, hi, hleave, hend⟩
    exact ⟨(i, n), mem_leaves_iff.2 ⟨hi, hleave⟩, (hcompletes i n).2 hend⟩
  · rintro ⟨⟨i, n⟩, hmem, hend⟩
    obtain ⟨hi, hleave⟩ := mem_leaves_iff.1 hmem
    exact ⟨n, i, hi, hleave, (hcompletes i n).1 hend⟩

theorem exits_of_no_funnel (h : ∀ n, b.LastLeave n → n + 1 = b.size) :
    b.exits pattern = .error .noFunnel := by
  simp only [exits, funnel?_eq_none_iff.2 h]

theorem exits_of_no_end (hf : b.funnel? = some funnel) (hno : ∀ n, ¬b.EndsAt pattern funnel n) :
    b.exits pattern = .error (.noCompletion funnel) := by
  have hnil : (b.leaves.filter fun x ↦ b.completes pattern funnel x.1 x.2) = [] := by
    refine List.filter_eq_nil_iff.2 fun x hx hc ↦ ?_
    obtain ⟨n, hn⟩ := exists_endsAt_iff.2 ⟨x, hx, hc⟩
    exact hno n hn
  simp only [exits, hf, List.partition_eq_filter_filter, hnil, List.isEmpty_nil, if_true]

theorem exists_exits (hfunnel : ¬∀ n, b.LastLeave n → n + 1 = b.size)
    (hend : ∀ n i, b.LastLeave n → b.code[n + 1]? = some i → ¬∀ m, ¬b.EndsAt pattern i.label m) :
    ∃ exits, b.exits pattern = .ok exits := by
  obtain ⟨funnel, hf⟩ := Option.ne_none_iff_exists'.1 (mt funnel?_eq_none_iff.1 hfunnel)
  obtain ⟨n, i, hn, hi, rfl⟩ := funnel?_eq_some_iff.1 hf
  obtain ⟨x, hx, hc⟩ := exists_endsAt_iff.1 (Classical.not_forall_not.1 (hend n i hn hi))
  have hne : (b.leaves.filter fun x ↦ b.completes pattern i.label x.1 x.2).isEmpty = false :=
    List.isEmpty_eq_false_iff.2 (List.ne_nil_of_mem (List.mem_filter.2 ⟨hx, hc⟩))
  simp only [exits, hf, List.partition_eq_filter_filter, hne, Bool.false_eq_true, if_false]
  exact ⟨_, rfl⟩

theorem map_label_leaves (b : Body) : b.leaves.map (fun x ↦ x.1.label) = b.leaveLabels := by
  have hcode := List.zipIdx_map_fst 0 b.code
  conv_rhs => rw [leaveLabels, ← hcode, List.filter_map, List.map_map]
  rfl

theorem exits_sorted (hb : b.labels.Nodup) (h : b.exits pattern = .ok exits) :
    exits.completions.Sublist b.leaveLabels ∧ exits.suspensions.Sublist b.leaveLabels ∧
      ∀ l ∈ b.leaveLabels, l ∈ exits.suspensions ↔ l ∉ exits.completions := by
  obtain ⟨-, -, hapart⟩ := exits_eq_ok hb h
  rw [← map_label_leaves]
  unfold Body.exits at h
  split at h
  · cases h
  · rename_i funnel _
    rw [List.partition_eq_filter_filter] at h
    dsimp only at h
    split at h
    · cases h
    · injection h with h
      subst h
      refine ⟨List.filter_sublist.map _, List.filter_sublist.map _, fun l hl ↦
        ⟨hapart l, fun hno ↦ ?_⟩⟩
      obtain ⟨x, hx, rfl⟩ := List.mem_map.1 hl
      refine List.mem_map_of_mem (List.mem_filter.2 ⟨hx, ?_⟩)
      rw [Function.comp_apply, Bool.not_eq_true', ← Bool.not_eq_true]
      exact fun hc ↦ hno (List.mem_map_of_mem (List.mem_filter.2 ⟨hx, hc⟩))

theorem findIdx_of_firstLoad (h : b.FirstLoad pattern n) :
    (b.code.findIdx fun i ↦ i.op.loadsState pattern.stateMarker) = n := by
  obtain ⟨⟨i, hi, hload⟩, hfirst⟩ := h
  obtain ⟨hlt, rfl⟩ := List.getElem?_eq_some_iff.1 hi
  exact (List.findIdx_eq hlt).2 ⟨hload, fun m hm ↦
    hfirst m _ hm (List.getElem?_eq_getElem (hm.trans hlt))⟩

theorem stepEntry_of_odd (h : b.FirstLoad pattern n) (hi : b.code[n]? = some i)
    (hodd : ∀ k, n = k + 1 → b.code[k]?.map Instr.op ≠ some (.ldarg 0)) :
    b.stepEntry pattern = .error (.oddStateLoad i.label) := by
  simp only [stepEntry, findIdx_of_firstLoad h, hi]
  cases n with
  | zero => rfl
  | succ k => exact if_neg (hodd k rfl)

theorem exists_stepEntry (h : ∀ n, b.FirstLoad pattern n →
    ∃ k, n = k + 1 ∧ b.code[k]?.map Instr.op = some (.ldarg 0)) :
    ∃ entry, b.stepEntry pattern = .ok entry := by
  generalize hn : (b.code.findIdx fun i ↦ i.op.loadsState pattern.stateMarker) = n
  cases hi : b.code[n]? with
  | none =>
    simp only [stepEntry, hn, hi]
    exact ⟨0, rfl⟩
  | some i =>
    obtain ⟨hlt, rfl⟩ := List.getElem?_eq_some_iff.1 hi
    obtain ⟨hload, hfirst⟩ := (List.findIdx_eq hlt).1 hn
    obtain ⟨k, rfl, hk⟩ := h n ⟨⟨_, hi, hload⟩, fun m j hm hj ↦ by
      obtain ⟨-, rfl⟩ := List.getElem?_eq_some_iff.1 hj
      exact hfirst m hm⟩
    simp only [stepEntry, hn, hi, if_pos hk]
    exact ⟨k, rfl⟩

end Body

theorem Woven.sound {b c : Body} {entry : Nat} {completions : List Label} {id : Int32}
    {name : String} {hooks : Hooks} {xs : List Piece}
    (h : Woven b c entry completions id name hooks xs) (hb : b.Sound) (hn : c.labels.Nodup) :
    c.Sound := by
  have hcall (hook : Callee) : ∀ op ∈ correlatedCall id name hook, c.Permits op := by
    intro op hop
    simp only [correlatedCall, List.mem_cons, List.not_mem_nil, or_false] at hop
    obtain rfl | rfl | rfl := hop <;> exact Body.permits_of_plain rfl rfl
  have hnop : c.Permits .nop := Body.permits_of_plain rfl rfl
  refine h.spliced.sound hb h.code hn (hcall _) (fun i _ hi ↦ ?_) (List.forall_mem_nil _)
    (h.locals ▸ Nat.le_refl _) h.regions
  split
  · exact List.forall_mem_cons.2 ⟨hnop, List.forall_mem_append.2
      ⟨hcall _, List.forall_mem_singleton.2 hi⟩⟩
  · exact List.forall_mem_singleton.2 hi

section

variable {b c : Body} {id : Int32} {name : String} {hooks : Hooks} {pattern : StepPattern}
  {exits : Exits} {entry : Nat} {e : Refusal}

namespace Edit

theorem correlate_of_exits_error (henter : enter hooks b = .ok () b)
    (hx : b.exits pattern = .error e) :
    correlate id name hooks pattern b = .error e b.lengthen := by
  have hexits : ofExcept (b.lengthen.exits pattern) b.lengthen = .error e b.lengthen := by
    rw [Body.exits_lengthen, hx]
    rfl
  unfold correlate
  rw [bind_of_ok henter, modify_bind, get_bind]
  exact bind_of_error hexits

theorem correlate_of_exits (henter : enter hooks b = .ok () b) (hx : b.exits pattern = .ok exits) :
    correlate id name hooks pattern b = (ofExcept (b.stepEntry pattern) >>= fun entry ↦
      insert entry (correlatedCall id name hooks.asyncEnter) >>= fun _ ↦
      modify (fun b ↦ exits.completions.foldl (Body.expand (fun _ ↦ .nop)
        fun op ↦ correlatedCall id name hooks.asyncExit ++ [op]) b) >>= fun _ ↦
      finish >>= fun _ ↦ pure exits) b.lengthen := by
  have hexits : ofExcept (b.lengthen.exits pattern) b.lengthen = .ok exits b.lengthen := by
    rw [Body.exits_lengthen, hx]
    rfl
  unfold correlate
  rw [bind_of_ok henter, modify_bind, get_bind, bind_of_ok hexits, get_bind,
    Body.stepEntry_lengthen]
  simp only [Body.insertAhead_eq_expand]

/-- Once the exits and the entry are known nothing can go wrong. -/
theorem exists_correlate_eq_ok (hb : b.flaw? = none) (hids : ∀ l ∈ b.labels, l.val < b.next)
    (henter : enter hooks b = .ok () b) (hne : b.code ≠ []) (hx : b.exits pattern = .ok exits)
    (hentry : b.stepEntry pattern = .ok entry)
    (hroom : b.next.toNat + exits.draw < UInt32.size) (id : Int32) (name : String) :
    ∃ b', correlate id name hooks pattern b = .ok exits b' ∧ b'.flaw? = none ∧
      (∀ l ∈ b'.labels, l.val < b'.next) ∧ b'.locals = b.locals ∧ b'.regions = b.regions := by
  have hsound : b.lengthen.Sound := Body.sound_lengthen hb
  obtain ⟨hsub, hleave, -⟩ := Body.exits_eq_ok hsound.nodup ((b.exits_lengthen pattern).trans hx)
  have hlt : entry < b.lengthen.size := b.size_lengthen.symm ▸ Body.stepEntry_lt hne hentry
  obtain ⟨c, hc⟩ := exists_insert hlt.le (correlatedCall id name hooks.asyncEnter)
  have hdraw : exits.draw = 3 + 4 * exits.completions.length := rfl
  have hfront : c.Numbered (b.next.toNat + 3) [] := by
    have hstart := Body.numbered_lengthen (Body.flaw?_eq_none.1 hb).nodup hids
    exact hstart.insert (by simp only [correlatedCall, List.length_cons, List.length_nil]; omega) hc
  have hmem : ∀ l ∈ exits.completions, l ∈ c.labels :=
    fun l hl ↦ (labels_sublist_of_insert hc).subset (hsub.subset hl)
  have hall := hfront.foldl_expand (fun _ ↦ .nop)
    (fun op ↦ correlatedCall id name hooks.asyncExit ++ [op]) hmem (k := 4) (fun _ ↦ rfl) (by omega)
  obtain ⟨xs, hw⟩ := exists_woven hsound.nodup hsub hleave hlt hc hall.nodup_labels
  have hflaw := Body.flaw?_eq_none.2 (hw.sound hsound hall.nodup_labels)
  have hfinish := finish_eq (exits.completions.foldl (Body.expand (fun _ ↦ .nop)
    fun op ↦ correlatedCall id name hooks.asyncExit ++ [op]) c)
  rw [hflaw] at hfinish
  refine ⟨_, ?_, (flaw?_finished _).trans hflaw, fun l hl ↦ ?_, hw.locals, hw.regions⟩
  · rw [correlate_of_exits henter hx, hentry]
    change (insert entry _ >>= _) b.lengthen = _
    rw [bind_of_ok hc, modify_bind, bind_of_ok hfinish]
    rfl
  · rw [Body.labels_shorten] at hl
    exact hall.lt_next l hl

end Edit

namespace Body

/-- The look at the code finds the first reason that applies. -/
theorem correlate_of_first (h : FirstOf (b.correlateReasons hooks pattern) (some e)) (id : Int32)
    (name : String) : ∃ c, Edit.correlate id name hooks pattern b = .error e c := by
  obtain ⟨e', he, hentry⟩ | ⟨hentry, hmore⟩ := h.append_cases
  · cases he
    exact ⟨b, Edit.bind_of_error (Edit.enter_of_first hentry)⟩
  obtain ⟨henter, hne⟩ := Edit.enter_of_none hentry
  cases hmore with
  | here hfunnel =>
    obtain ⟨rfl, hno⟩ := hfunnel
    exact ⟨_, Edit.correlate_of_exits_error henter (exits_of_no_funnel hno)⟩
  | later hfunnel hmore =>
    cases hmore with
    | here hends =>
      obtain ⟨n, i, rfl, hn, hi, hno⟩ := hends
      have hf := funnel?_eq_some_iff.2 ⟨n, i, hn, hi, rfl⟩
      exact ⟨_, Edit.correlate_of_exits_error henter (exits_of_no_end hf hno)⟩
    | later hends hmore =>
      cases hmore with
      | here hload =>
        obtain ⟨n, i, rfl, hn, hi, hodd⟩ := hload
        obtain ⟨exits, hx⟩ := exists_exits (fun hno ↦ hfunnel _ ⟨rfl, hno⟩)
          fun n i hn hi hno ↦ hends _ ⟨n, i, rfl, hn, hi, hno⟩
        refine ⟨b.lengthen, ?_⟩
        rw [Edit.correlate_of_exits henter hx, stepEntry_of_odd hn hi hodd]
        rfl
      | later _ hmore => cases hmore

theorem correlate_of_none (hb : b.flaw? = none) (hids : ∀ l ∈ b.labels, l.val < b.next)
    (hroom : FirstOf (b.correlateReasons hooks pattern) none →
      ∀ exits, b.exits pattern = .ok exits → b.next.toNat + exits.draw < UInt32.size)
    (h : FirstOf (b.correlateReasons hooks pattern) none) (id : Int32) (name : String) :
    ∃ exits b', b.correlate id name hooks pattern = (.ok exits, b') ∧
      b.exits pattern = .ok exits ∧ b'.flaw? = none ∧ (∀ l ∈ b'.labels, l.val < b'.next) ∧
      b'.locals = b.locals ∧ b'.regions = b.regions := by
  obtain ⟨hentry, hmore⟩ := h.append_cases.resolve_left (by simp)
  simp only [FirstOf.none_iff, List.forall_mem_cons] at hmore
  obtain ⟨hfunnel, hends, hload, -⟩ := hmore
  obtain ⟨henter, hne⟩ := Edit.enter_of_none hentry
  obtain ⟨exits, hx⟩ := exists_exits (fun hno ↦ hfunnel _ ⟨rfl, hno⟩)
    fun n i hn hi hno ↦ hends _ ⟨n, i, rfl, hn, hi, hno⟩
  have hladen (n) (hn : b.FirstLoad pattern n) :
      ∃ k, n = k + 1 ∧ b.code[k]?.map Instr.op = some (.ldarg 0) := by
    obtain ⟨i, hi, -⟩ := hn.1
    by_contra hodd
    exact hload _ ⟨n, i, rfl, hn, hi, fun k hk hop ↦ hodd ⟨k, hk, hop⟩⟩
  obtain ⟨entry, hstart⟩ := exists_stepEntry hladen
  obtain ⟨b', hb', hrest⟩ := Edit.exists_correlate_eq_ok hb hids henter hne hx hstart
    (hroom h exits hx) id name
  exact ⟨exits, b', by simp only [correlate, hb'], hx, hrest⟩

end Body

end

/-- A body without flaws whose labels have all been handed out is refused for the first reason that
applies, and for no other; if none does, it is correlated. Every exit then completes or suspends,
what comes out has no flaw, its labels have been handed out, and locals and regions are the old
ones. -/
theorem correlate_decided (b : Body) (id : Int32) (name : String) (hooks : Hooks)
    (pattern : StepPattern) (hb : b.flaw? = none) (hids : ∀ l ∈ b.labels, l.val < b.next)
    (hroom : FirstOf (b.correlateReasons hooks pattern) none →
      ∀ exits, b.exits pattern = .ok exits → b.next.toNat + exits.draw < UInt32.size) :
    let reasons := b.correlateReasons hooks pattern
    (∀ e, (b.correlate id name hooks pattern).1 = .error e ↔ FirstOf reasons (some e)) ∧
      ((∃ exits, (b.correlate id name hooks pattern).1 = .ok exits) ↔ FirstOf reasons none) ∧
      ∀ exits b', b.correlate id name hooks pattern = (.ok exits, b') →
        exits.completions.Sublist b.leaveLabels ∧ exits.suspensions.Sublist b.leaveLabels ∧
          (∀ l ∈ b.leaveLabels, l ∈ exits.suspensions ↔ l ∉ exits.completions) ∧
          b'.flaw? = none ∧ (∀ l ∈ b'.labels, l.val < b'.next) ∧
          b'.locals = b.locals ∧ b'.regions = b.regions := by
  intro reasons
  have hrefuse (e) (h : FirstOf reasons (some e)) :
      (b.correlate id name hooks pattern).1 = .error e := by
    obtain ⟨c, hc⟩ := Body.correlate_of_first h id name
    simp only [Body.correlate, hc]
  have haccept (h : FirstOf reasons none) :
      ∃ exits, (b.correlate id name hooks pattern).1 = .ok exits := by
    obtain ⟨exits, b', hb', -⟩ := Body.correlate_of_none hb hids hroom h id name
    exact ⟨exits, congrArg Prod.fst hb'⟩
  obtain ⟨hrefused, haccepted⟩ := FirstOf.decides hrefuse haccept
  refine ⟨hrefused, haccepted, fun exits b' h ↦ ?_⟩
  obtain ⟨exits', c, hc, hx, hrest⟩ :=
    Body.correlate_of_none hb hids hroom (haccepted.1 ⟨exits, by rw [h]⟩) id name
  obtain ⟨hexits, rfl⟩ := Prod.mk.inj (h.symm.trans hc)
  obtain rfl := Except.ok.inj hexits
  obtain ⟨hcompletions, hsuspensions, hapart⟩ :=
    Body.exits_sorted (Body.flaw?_eq_none.1 hb).nodup hx
  exact ⟨hcompletions, hsuspensions, hapart, hrest⟩

def threeWays : Body where
  code := [⟨⟨0⟩, .ldarg 0⟩, ⟨⟨1⟩, .ldfld ⟨⟨"App", "Step"⟩, "__state", .int32⟩⟩,
    ⟨⟨2⟩, .branch .ifTrue .short ⟨4⟩⟩, ⟨⟨3⟩, .branch .leave .short ⟨8⟩⟩,
    ⟨⟨4⟩, .call (.static ⟨"App", "Builder"⟩ "SetException" [] .void)⟩,
    ⟨⟨5⟩, .branch .leave .short ⟨8⟩⟩, ⟨⟨6⟩, .branch .leave .short ⟨7⟩⟩,
    ⟨⟨7⟩, .call (.static ⟨"App", "Builder"⟩ "SetResult" [] .void)⟩, ⟨⟨8⟩, .ret⟩]
  locals := []
  regions := [⟨.cleanup, ⟨0⟩, ⟨7⟩, ⟨7⟩, ⟨8⟩⟩]
  initLocals := false
  next := 9

theorem correlate_decided_threeWays :
    let hooks := Hooks.on ⟨"App", "Tracer"⟩
    let b := threeWays
    FirstOf (b.correlateReasons hooks .standard) none ∧ ∃ b',
      b.correlate 7 "Run" hooks .standard = (.ok ⟨⟨7⟩, [⟨5⟩, ⟨6⟩], [⟨3⟩]⟩, b') ∧ b'.flaw? = none ∧
        b'.regions = b.regions := by
  intro hooks b
  have hexits : b.exits .standard = .ok ⟨⟨7⟩, [⟨5⟩, ⟨6⟩], [⟨3⟩]⟩ := by decide +kernel
  obtain ⟨-, haccepted, hsound⟩ := correlate_decided b 7 "Run" hooks .standard (by decide +kernel)
    (by decide +kernel) fun _ exits hx ↦ by
      obtain rfl := Except.ok.inj (hexits.symm.trans hx)
      decide +kernel
  have hok : (b.correlate 7 "Run" hooks .standard).1 = .ok ⟨⟨7⟩, [⟨5⟩, ⟨6⟩], [⟨3⟩]⟩ := by
    decide +kernel
  clear_value hooks b
  have hpair : b.correlate 7 "Run" hooks .standard =
      (.ok ⟨⟨7⟩, [⟨5⟩, ⟨6⟩], [⟨3⟩]⟩, (b.correlate 7 "Run" hooks .standard).2) := Prod.ext hok rfl
  obtain ⟨-, -, -, hflaw, -, -, hregions⟩ := hsound _ _ hpair
  exact ⟨haccepted.1 ⟨_, hok⟩, _, hpair, hflaw, hregions⟩

end CilSpan
