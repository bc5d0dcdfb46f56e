import CilSpan.Proofs.Span.Edited
import CilSpan.Proofs.Span.Reasons

namespace CilSpan

/-- For what reasons a body is not bracketed before labels are handed out, in the order in which
they count. -/
def Body.bracketReasons (b : Body) (base : Option TypeName) (result : TypeName) (hooks : Hooks) :
    List (Refusal → Prop) :=
  b.entryReasons hooks ++
    [fun e ↦ e = .noBaseCall ∧ ∃ t, base = some t ∧ ∀ i ∈ b.code, i.op.constructs t = false,
      fun e ↦ e = .invalid (.tooManyLocals b.locals.length) ∧ result.isVoid = false ∧
        65536 ≤ b.locals.length]

def Body.ChainsLast (b : Body) (t : TypeName) : Prop :=
  ∃ before i, b.code = before ++ [i] ∧ i.op.constructs t = true ∧
    ∀ j ∈ before, j.op.constructs t = false

def Body.lateReason (b : Body) (base : Option TypeName) : Refusal → Prop :=
  fun e ↦ e = .invalid (.regionOrder b.regions.length) ∧ ∃ t, base = some t ∧ b.ChainsLast t

section

variable {b c d : Body} {base : Option TypeName} {result : TypeName} {name : String}
  {hooks : Hooks} {funnel : Funnel} {start n : Nat}

namespace Edit

theorem funnelReturns_of_full (hv : result.isVoid = false) (hfull : 65536 ≤ b.locals.length) :
    funnelReturns result b = .error (.invalid (.tooManyLocals b.locals.length)) b := by
  have hlocal : addLocal result b = .error (.invalid (.tooManyLocals b.locals.length)) b := by
    have hnot : ¬b.locals.length < UInt16.size := Nat.not_lt_of_le hfull
    simp only [addLocal, Body.addLocal, if_neg hnot]
  unfold funnelReturns
  simp only [get_bind, hv, Bool.false_eq_true, if_false]
  exact bind_of_error hlocal

theorem exists_funnelReturns (h : result.isVoid = true ∨ b.locals.length < 65536) :
    ∃ funnel d, funnelReturns result b = .ok funnel d := by
  unfold funnelReturns
  simp only [get_bind]
  cases hv : result.isVoid with
  | true => exact ⟨_, _, rfl⟩
  | false =>
    have hlt : b.locals.length < UInt16.size := h.resolve_left (hv ▸ nofun)
    have hlocal : addLocal result b =
        .ok (.ofNat b.locals.length) { b with locals := b.locals ++ [result] } := by
      simp only [addLocal, Body.addLocal, if_pos hlt]
    simp only [Bool.false_eq_true, if_false]
    rw [bind_of_ok hlocal]
    exact ⟨_, _, rfl⟩

end Edit

namespace Body

theorem Numbered.funnelReturns (h : b.Numbered n [])
    (hf : Edit.funnelReturns result b = .ok funnel d)
    (hroom : n + (if result.isVoid then 1 else b.returns.length + 2) < UInt32.size) :
    d.Numbered (n + if result.isVoid then 1 else b.returns.length + 2) [] := by
  have hreturns : ∀ l ∈ b.returns, l ∈ b.labels :=
    fun l hl ↦ ((List.filter_sublist (l := b.code)).map Instr.label).subset hl
  unfold Edit.funnelReturns at hf
  simp only [Edit.get_bind] at hf
  split at hf
  · rename_i hv
    rw [if_pos hv] at hroom ⊢
    simp only [Edit.create_bind, Edit.modify_bind, leaveReturns_eq_foldl] at hf
    injection hf with _ hd
    rw [← hd]
    have hstart := h.create hroom
    have hleft := hstart.foldl_expand (fun _ ↦ .branch .leave .long b.freshLabel) (fun _ ↦ [])
      hreturns (k := 0) (fun _ ↦ rfl) (by omega)
    rw [Nat.zero_mul] at hleft
    exact hleft.append .ret
  · rename_i hv
    rw [if_neg hv] at hroom ⊢
    obtain ⟨slot, e, hs, hf⟩ := Edit.bind_eq_ok hf
    obtain ⟨-, rfl⟩ := Edit.addLocal_eq_ok hs
    simp only [Edit.create_bind, Edit.modify_bind, storeReturns_eq_foldl] at hf
    injection hf with _ hd
    rw [← hd]
    have hlocals : Numbered { b with locals := b.locals ++ [result] } n [] :=
      h.of_perm rfl (List.Perm.refl _)
    have hstart := hlocals.create (by omega)
    have hstored := hstart.foldl_expand (fun _ ↦ .stloc slot)
      (fun _ ↦ [.branch .leave .long b.freshLabel]) hreturns (k := 1) (fun _ ↦ rfl) (by omega)
    have hload := hstored.append (.ldloc slot)
    have hall := hload.push .ret (by omega)
    have hcount : n + 1 + 1 * b.returns.length + 1 = n + (b.returns.length + 2) := by omega
    exact hcount ▸ hall

/-- The region of a span that begins inside the old code is in order. One that begins at the funnel,
behind the end of the span, is not. -/
theorem regionFlaw?_span {front run rest : List Instr} {marker exit done i : Instr} {op : Op}
    {l : Label} (hb : b.code = (front.take start ++ run ++ front.drop start) ++
      (marker :: exit :: done :: ⟨l, op⟩ :: rest)) (hn : b.labels.Nodup)
    (hs : start ≤ front.length) (hi : (front ++ ⟨l, op⟩ :: rest)[start]? = some i) (index : Nat) :
    b.regionFlaw? index ⟨.cleanup, i.label, marker.label, marker.label, l⟩ =
      if start < front.length then none else some (.regionOrder index) := by
  have hlen : (front.take start ++ run ++ front.drop start).length = front.length + run.length := by
    simp only [List.length_append, List.length_take, List.length_drop]
    omega
  have hmarker : b.position? marker.label = some (front.length + run.length) :=
    position?_of_getElem? hn
      (by rw [hb, List.getElem?_append_right hlen.le, hlen, Nat.sub_self]; rfl)
  have hfunnel : b.position? l = some (front.length + run.length + 3) := by
    refine position?_of_getElem? (i := ⟨l, op⟩) hn ?_
    rw [hb, List.getElem?_append_right (hlen ▸ Nat.le_add_right _ 3), hlen, Nat.add_sub_cancel_left]
    rfl
  split
  · rename_i hlt
    have htake : (front.take start ++ run).length = start + run.length := by
      rw [List.length_append, List.length_take, Nat.min_eq_left hs]
    have hstart : b.position? i.label = some (start + run.length) := by
      refine position?_of_getElem? hn ?_
      rw [List.getElem?_append_left hlt] at hi
      rw [hb, List.getElem?_append_left (by omega), List.getElem?_append_right htake.le, htake,
        Nat.sub_self, List.getElem?_drop, Nat.add_zero, hi]
    rw [regionFlaw?, boundaryFlaw?_eq_none]
    exact ⟨_, hstart, Nat.zero_le _, _, hmarker, by omega, _, hmarker, Nat.le_refl _, _, hfunnel,
      by omega, trivial⟩
  · -- The protected range would begin at the funnel and end in front of it.
    obtain rfl : start = front.length := by omega
    rw [List.getElem?_append_right (Nat.le_refl _), Nat.sub_self] at hi
    obtain rfl : ⟨l, op⟩ = i := Option.some_inj.1 hi
    have hbefore : front.length + run.length < front.length + run.length + 3 := by omega
    simp only [regionFlaw?, Region.boundaries, boundaryFlaw?, hfunnel, hmarker, Nat.not_lt_zero,
      hbefore, if_false, if_true]

end Body

namespace Funnelled

variable {xs ys : List Piece} {slot : UInt16} {last : Label} {g : Body} {front : List Op}
  {run : List Instr}

variable (h : Funnelled b d result funnel start xs slot last)
include h

/-- Code with the returns led into the funnel has no flaw, whatever plain code is spliced in. -/
theorem sound (hb : b.Sound) (hs : Spliced start front
      (fun i ↦ if i.op = .ret then returnOp result slot funnel.label else i.op)
      (fun i ↦ if i.op = .ret then returnRest result funnel.label else []) b.code ys)
    (hcode : g.code = rebuild ys (run ++ funnelCode result slot funnel.label last))
    (hn : g.labels.Nodup) (hlocals : g.locals = d.locals) (hregions : g.regions = d.regions)
    (hfront : ∀ op ∈ front, op.target? = none ∧ op.slot? = none)
    (hrun : ∀ op ∈ run.map Instr.op, op.target? = none ∧ op.slot? = none) : g.Sound := by
  obtain ⟨next, hd⟩ := h.eq
  rw [hd] at hlocals hregions
  have hleave : g.Permits (.branch .leave .long funnel.label) := by
    refine Body.permits_of_target rfl rfl ?_
    rw [Body.labels, hcode, rebuild]
    unfold funnelCode
    split <;> simp
  have hslot (hv : result.isVoid = false) : slot.toNat < g.locals.length := by
    rw [h.slot hv, hlocals, resultLocals, hv]
    simp
  have hops : ∀ i ∈ b.code, g.Permits i.op →
      ∀ op ∈ (if i.op = .ret then returnOp result slot funnel.label else i.op) ::
        (if i.op = .ret then returnRest result funnel.label else []), g.Permits op := by
    intro i _ hi
    split
    · cases hv : result.isVoid with
      | true => simpa [returnOp, returnRest, hv] using hleave
      | false =>
        have hstore : g.Permits (.stloc slot) := Body.permits_of_slot rfl rfl (hslot hv)
        simpa [returnOp, returnRest, hv] using ⟨hstore, hleave⟩
    · exact List.forall_mem_singleton.2 hi
  have htail : ∀ j ∈ run ++ funnelCode result slot funnel.label last, g.Permits j.op := by
    refine List.forall_mem_append.2 ⟨fun j hj ↦ ?_, ?_⟩
    · obtain ⟨ht, hk⟩ := hrun _ (List.mem_map_of_mem hj)
      exact Body.permits_of_plain ht hk
    · have hret : g.Permits .ret := Body.permits_of_plain rfl rfl
      cases hv : result.isVoid with
      | true => simpa [funnelCode, hv] using hret
      | false =>
        have hload : g.Permits (.ldloc slot) := Body.permits_of_slot rfl rfl (hslot hv)
        simpa [funnelCode, hv] using ⟨hload, hret⟩
  refine hs.sound hb hcode hn (fun op hop ↦ ?_) hops htail ?_ hregions
  · exact Body.permits_of_plain (hfront op hop).1 (hfront op hop).2
  · rw [hlocals]
    simp

theorem code_eq : d.code = rebuild xs [] ++ funnelCode result slot funnel.label last := by
  obtain ⟨next, hd⟩ := h.eq
  rw [hd, rebuild_nil_append]

theorem length_pieces : xs.length = b.size := h.spliced.length

theorem arrival_size : arrival xs b.size = (rebuild xs []).length := by
  rw [← h.length_pieces, arrival_length]

theorem arrival_le (hle : start ≤ b.size) : arrival xs start ≤ (rebuild xs []).length := by
  rcases Nat.lt_or_eq_of_le hle with hlt | rfl
  · exact (arrival_lt_length (h.length_pieces.symm ▸ hlt)).le
  · exact h.arrival_size.le

theorem arrival_lt_iff (hle : start ≤ b.size) :
    arrival xs start < (rebuild xs []).length ↔ start < b.size := by
  rcases Nat.lt_or_eq_of_le hle with hlt | rfl
  · exact iff_of_true (arrival_lt_length (h.length_pieces.symm ▸ hlt)) hlt
  · exact iff_of_false h.arrival_size.not_lt (Nat.lt_irrefl _)

theorem sound_of_span (hb : b.Sound) (hle : start ≤ b.size) (ahead back : List Instr)
    (hcode : g.code = ((rebuild xs []).take (arrival xs start) ++ ahead ++
      (rebuild xs []).drop (arrival xs start)) ++
        (back ++ funnelCode result slot funnel.label last))
    (hn : g.labels.Nodup) (hlocals : g.locals = d.locals) (hregions : g.regions = d.regions)
    (hahead : ∀ op ∈ ahead.map Instr.op, op.target? = none ∧ op.slot? = none)
    (hback : ∀ op ∈ back.map Instr.op, op.target? = none ∧ op.slot? = none) : g.Sound := by
  rcases Nat.lt_or_eq_of_le hle with hlt | rfl
  · -- What is put in front of an old instruction belongs to its piece.
    have hstart : start < xs.length := h.length_pieces.symm ▸ hlt
    rw [splice_arrival ahead hstart, rebuild_nil_append] at hcode
    exact h.sound hb (h.spliced.putAhead ahead) hcode hn hlocals hregions hahead hback
  · -- Behind all pieces there is none to put it to.
    rw [h.arrival_size, List.take_length, List.drop_length, List.append_nil, List.append_assoc,
      ← List.append_assoc ahead, rebuild_nil_append] at hcode
    refine h.sound hb h.spliced hcode hn hlocals hregions (List.forall_mem_nil _) ?_
    rw [List.map_append]
    exact List.forall_mem_append.2 ⟨hahead, hback⟩

theorem exists_spanned (hb : b.Sound) (hd : d.Numbered n []) (hroom : n + 5 < UInt32.size)
    (hle : start ≤ b.size) (name : String) (hooks : Hooks) :
    ∃ (g : Body) (r : Region),
      Edit.close (arrival xs start) funnel name hooks d = Edit.finish (g.addRegion r) ∧
      g.Sound ∧ g.Numbered (n + 5) [] ∧ g.regions = b.regions ∧ r.handler = .cleanup ∧
      g.regionFlaw? b.regions.length r =
        if start < b.size then none else some (.regionOrder b.regions.length) := by
  obtain ⟨op, rest, hfunnel⟩ : ∃ op rest,
      funnelCode result slot funnel.label last = ⟨funnel.label, op⟩ :: rest := by
    unfold funnelCode
    split <;> exact ⟨_, _, rfl⟩
  have harr := h.arrival_le hle
  have hin : arrival xs start < d.code.length := by
    rw [h.code_eq, hfunnel, List.length_append, List.length_cons]
    omega
  obtain ⟨i, hi⟩ : ∃ i, d.code[arrival xs start]? = some i := ⟨_, List.getElem?_eq_getElem hin⟩
  obtain ⟨run, marker, exit, done, g, hrun, ⟨next, hg⟩, hnumbered, hclose⟩ :=
    Edit.close_eq name hooks h.code_eq h.size harr hi
  have hnumbered := hnumbered n hd hroom
  have hn := hnumbered.nodup_labels
  have hcode := congrArg Body.code hg
  have hsound := h.sound_of_span hb hle run
    [⟨marker, .nop⟩, ⟨exit, .call hooks.exit⟩, ⟨done, .endfinally⟩] hcode hn
    (by rw [hg]) (by rw [hg]) (by rw [hrun]; simp [Op.target?, Op.slot?])
    (by simp [Op.target?, Op.slot?])
  rw [hfunnel] at hcode
  rw [h.code_eq, hfunnel] at hi
  have hflaw := Body.regionFlaw?_span hcode hn harr hi b.regions.length
  simp only [h.arrival_lt_iff hle] at hflaw
  obtain ⟨next', hd'⟩ := h.eq
  exact ⟨g, _, hclose, hsound, hnumbered, by rw [hg, hd'], rfl, hflaw⟩

/-- A span that begins at an old instruction can be closed. -/
theorem close_eq_ok (hb : b.Sound) (hd : d.Numbered n []) (hroom : n + 5 < UInt32.size)
    (hlt : start < b.size) (name : String) (hooks : Hooks) :
    ∃ b' r, Edit.close (arrival xs start) funnel name hooks d = .ok () b' ∧ b'.flaw? = none ∧
      b'.initLocals = true ∧ (∀ l ∈ b'.labels, l.val < b'.next) ∧
      b'.regions = b.regions ++ [r] ∧ r.handler = .cleanup := by
  obtain ⟨g, r, hclose, hsound, hnumbered, hregions, hr, hflaw⟩ :=
    h.exists_spanned hb hd hroom hlt.le name hooks
  rw [if_pos hlt, ← hregions, ← hsound.flaw?_addRegion] at hflaw
  rw [hclose, Edit.finish_eq, hflaw]
  refine ⟨_, r, rfl, (Edit.flaw?_finished _).trans hflaw, rfl, fun l hl ↦ ?_,
    congrArg (· ++ [r]) hregions, hr⟩
  rw [Body.labels_shorten] at hl
  exact hnumbered.lt_next l hl

theorem close_eq_error (hb : b.Sound) (hd : d.Numbered n []) (hroom : n + 5 < UInt32.size)
    (hend : start = b.size) (name : String) (hooks : Hooks) :
    ∃ b', Edit.close (arrival xs start) funnel name hooks d =
      .error (.invalid (.regionOrder b.regions.length)) b' := by
  obtain ⟨g, r, hclose, hsound, -, hregions, -, hflaw⟩ :=
    h.exists_spanned hb hd hroom hend.le name hooks
  rw [if_neg hend.not_lt] at hflaw
  rw [hclose, Edit.finish_eq, hsound.flaw?_addRegion, hregions, hflaw]
  exact ⟨_, rfl⟩

end Funnelled

/-- Behind a call the span begins where control arrives that has come past it. -/
theorem Funnelled.spanStart_eq {k : Nat} {l : Label} {callee : Callee} {xs : List Piece}
    {slot : UInt16} {last : Label} (h : Funnelled b.lengthen d result funnel (k + 1) xs slot last)
    (hd : d.labels.Nodup) (hi : b.code[k]? = some ⟨l, .call callee⟩) :
    Edit.spanStart (some l) d = .ok (arrival xs (k + 1)) d := by
  have hlong : b.lengthen.code[k]? = some ⟨l, .call callee⟩ := by
    rw [Body.getElem?_lengthen, hi]
    rfl
  obtain ⟨y, hy, hm, hbehind, -⟩ := h.spliced.piece k _ hlong
  rw [if_neg nofun, List.map_eq_nil_iff] at hbehind
  have harrival : arrival xs (k + 1) = place xs k + 1 := by
    rw [arrival_succ hy, hbehind]
    rfl
  have hplace : d.position? l = some (place xs k) := by
    obtain ⟨next, rfl⟩ := h.eq
    have hmain := Body.position?_of_getElem? hd (getElem?_main hy)
    rwa [hm] at hmain
  have hin : place xs k + 1 < d.size := by
    have hle := h.arrival_le (List.getElem?_eq_some_iff.1 hlong).1
    have hpos : 0 < (funnelCode result slot funnel.label last).length := by
      unfold funnelCode
      split <;> exact Nat.succ_pos _
    rw [Body.size, h.code_eq, List.length_append]
    omega
  simp only [Edit.spanStart, hplace, if_pos hin, harrival]

namespace Body

variable {before after : List Instr} {t : TypeName} {i : Instr}

theorem chainsLast_iff (hb : b.code = before ++ i :: after) (hi : i.op.constructs t = true)
    (hbefore : ∀ j ∈ before, j.op.constructs t = false) : b.ChainsLast t ↔ after = [] := by
  constructor
  · rintro ⟨before', i', hb', -, hbefore'⟩
    obtain rfl | ⟨after', j, rfl⟩ := List.eq_nil_or_concat' after
    · rfl
    · rw [hb, ← List.cons_append, ← List.append_assoc] at hb'
      have hold := hbefore' i
        ((List.append_inj' hb' rfl).1 ▸ List.mem_append_right _ List.mem_cons_self)
      rw [hi] at hold
      cases hold
  · rintro rfl
    exact ⟨before, i, hb, hi, hbefore⟩

theorem exists_start (result : TypeName) (hne : b.code ≠ [])
    (hbase : ∀ t, base = some t → ∃ i ∈ b.code, i.op.constructs t = true) :
    ∃ anchor start, Edit.findBaseCall base b = .ok anchor b ∧ start ≤ b.size ∧
      (start = b.size ↔ ∃ t, base = some t ∧ b.ChainsLast t) ∧
      ∀ {d funnel xs slot last}, Funnelled b.lengthen d result funnel start xs slot last →
        d.labels.Nodup → Edit.spanStart anchor d = .ok (arrival xs start) d := by
  cases base with
  | none =>
    have hpos : 0 < b.size := List.length_pos_iff.2 hne
    refine ⟨none, 0, rfl, hpos.le, iff_of_false hpos.ne (fun ⟨t, ht, _⟩ ↦ by cases ht),
      fun _ _ ↦ ?_⟩
    rw [arrival_zero]
    rfl
  | some t =>
    obtain ⟨⟨l, op⟩, hfind⟩ :
        ∃ i, b.code.find? (fun i ↦ i.op.constructs t) = some i :=
      Option.isSome_iff_exists.1 (List.find?_isSome.2 (hbase t rfl))
    obtain ⟨hi, before, after, hb, hbefore⟩ := List.find?_eq_some_iff_append.1 hfind
    simp only [Bool.not_eq_true'] at hbefore
    have hlast := chainsLast_iff hb hi hbefore
    obtain ⟨callee, rfl⟩ := Op.exists_call_of_constructs hi
    have hsize : b.size = before.length + 1 + after.length := by
      rw [size, hb, List.length_append, List.length_cons]
      omega
    have hcall : b.code[before.length]? = some ⟨l, .call callee⟩ := by simp [hb]
    refine ⟨some l, before.length + 1, ?_, by omega, ?_, fun h hd ↦ h.spanStart_eq hd hcall⟩
    · simp only [Edit.findBaseCall, baseCall?, hfind, Option.map_some]
    · simp only [Option.some.injEq, exists_eq_left', hlast, hsize]
      rw [Nat.left_eq_add, List.length_eq_zero_iff]

end Body

namespace Edit

theorem bracket_of_enter (h : enter hooks b = .ok () b) : bracket base result name hooks b =
    (findBaseCall base >>= fun anchor ↦ modify Body.lengthen >>= fun _ ↦ funnelReturns result >>=
      fun funnel ↦ spanStart anchor >>= fun start ↦ close start funnel name hooks) b :=
  bind_of_ok h

theorem findBaseCall_of_none {t : TypeName} (h : ∀ i ∈ b.code, i.op.constructs t = false) :
    findBaseCall (some t) b = .error .noBaseCall b := by
  have hnone : b.code.find? (fun i ↦ i.op.constructs t) = none :=
    List.find?_eq_none.2 fun i hi ↦ by rw [h i hi]; exact Bool.false_ne_true
  simp only [findBaseCall, Body.baseCall?, hnone, Option.map_none]

end Edit

namespace Body

theorem exists_constructs (h : ¬∃ t, base = some t ∧ ∀ i ∈ b.code, i.op.constructs t = false) :
    ∀ t, base = some t → ∃ i ∈ b.code, i.op.constructs t = true := by
  intro t ht
  by_contra hno
  refine h ⟨t, ht, fun i hi ↦ ?_⟩
  rw [← Bool.not_eq_true]
  exact fun hop ↦ hno ⟨i, hi, hop⟩

theorem bracket_of_early {e : Refusal} (h : FirstOf (b.bracketReasons base result hooks) (some e))
    (name : String) : ∃ c, Edit.bracket base result name hooks b = .error e c := by
  obtain ⟨e', he, hentry⟩ | ⟨hentry, hmore⟩ := h.append_cases
  · cases he
    exact ⟨b, Edit.bind_of_error (Edit.enter_of_first hentry)⟩
  obtain ⟨henter, hne⟩ := Edit.enter_of_none hentry
  rw [Edit.bracket_of_enter henter]
  -- The reasons are taken in their order; under each, those before it are known not to apply.
  cases hmore with
  | here hbase =>
    obtain ⟨rfl, t, rfl, hcode⟩ := hbase
    exact ⟨b, Edit.bind_of_error (Edit.findBaseCall_of_none hcode)⟩
  | later hbase hmore =>
    cases hmore with
    | here hlocals =>
      obtain ⟨rfl, hv, hfull⟩ := hlocals
      obtain ⟨anchor, start, hanchor, -⟩ := exists_start result hne
        (exists_constructs fun hno ↦ hbase _ ⟨rfl, hno⟩)
      rw [Edit.bind_of_ok hanchor, Edit.modify_bind]
      exact ⟨b.lengthen, Edit.bind_of_error (Edit.funnelReturns_of_full hv hfull)⟩
    | later _ hmore => cases hmore

/-- Without such a reason everything is left to the last edits. -/
theorem bracket_of_late (hb : b.flaw? = none) (hids : ∀ l ∈ b.labels, l.val < b.next)
    (h : FirstOf (b.bracketReasons base result hooks) none)
    (hroom : b.next.toNat + b.bracketDraw result < UInt32.size) (name : String) :
    ∃ start funnel d xs slot last n, start ≤ b.lengthen.size ∧
      (start = b.lengthen.size ↔ ∃ t, base = some t ∧ b.ChainsLast t) ∧
      Funnelled b.lengthen d result funnel start xs slot last ∧ d.Numbered n [] ∧
      n + 5 < UInt32.size ∧ Edit.bracket base result name hooks b =
        Edit.close (arrival xs start) funnel name hooks d := by
  obtain ⟨hentry, hmore⟩ := h.append_cases.resolve_left (by simp)
  simp only [FirstOf.none_iff, List.forall_mem_cons] at hmore
  obtain ⟨hbase, hlocals, -⟩ := hmore
  obtain ⟨henter, hne⟩ := Edit.enter_of_none hentry
  obtain ⟨anchor, start, hanchor, hle, hlast, hstart⟩ :=
    exists_start result hne (exists_constructs fun hno ↦ hbase _ ⟨rfl, hno⟩)
  have hslot : result.isVoid = true ∨ b.locals.length < 65536 := by
    by_contra hno
    obtain ⟨hv, hfull⟩ := not_or.1 hno
    exact hlocals _ ⟨rfl, Bool.eq_false_iff.2 hv, Nat.le_of_not_lt hfull⟩
  obtain ⟨funnel, d, hf⟩ := Edit.exists_funnelReturns (b := b.lengthen) hslot
  have hdraw : b.bracketDraw result =
      (if result.isVoid then 1 else b.lengthen.returns.length + 2) + 5 := by
    rw [returns_lengthen, bracketDraw]
    split <;> rfl
  have hstart' := numbered_lengthen (flaw?_eq_none.1 hb).nodup hids
  have hd := hstart'.funnelReturns hf (by omega)
  obtain ⟨xs, slot, last, hx⟩ := exists_funnelled hf hd.nodup_labels start
  rw [← b.size_lengthen] at hle hlast
  refine ⟨start, funnel, d, xs, slot, last, _, hle, hlast, hx, hd, by omega, ?_⟩
  rw [Edit.bracket_of_enter henter, Edit.bind_of_ok hanchor, Edit.modify_bind, Edit.bind_of_ok hf,
    Edit.bind_of_ok (hstart hx hd.nodup_labels)]

theorem fst_bracket_of_error {e : Refusal} {b' : Body}
    (h : Edit.bracket base result name hooks b = .error e b') :
    (b.bracket base result name hooks).1 = .error e := by
  simp only [bracket, h]

theorem bracket_of_ok {b' : Body} (h : Edit.bracket base result name hooks b = .ok () b') :
    b.bracket base result name hooks = (.ok (), b') := by
  simp only [bracket, h]

theorem bracket_of_first {e : Refusal} (hb : b.flaw? = none)
    (hids : ∀ l ∈ b.labels, l.val < b.next)
    (hroom : FirstOf (b.bracketReasons base result hooks) none →
      b.next.toNat + b.bracketDraw result < UInt32.size)
    (h : FirstOf (b.bracketReasons base result hooks ++ [b.lateReason base]) (some e))
    (name : String) : (b.bracket base result name hooks).1 = .error e := by
  obtain ⟨e', he, hearly⟩ | ⟨hnone, hlate⟩ := h.append_cases
  · cases he
    obtain ⟨c, hc⟩ := bracket_of_early hearly name
    exact fst_bracket_of_error hc
  · cases hlate with
    | later _ hlate => cases hlate
    | here hlate =>
      obtain ⟨rfl, hlast⟩ := hlate
      obtain ⟨start, funnel, d, xs, slot, last, n, -, hend, hx, hd, hn, hclose⟩ :=
        bracket_of_late hb hids hnone (hroom hnone) name
      obtain ⟨b', hb'⟩ := hx.close_eq_error (sound_lengthen hb) hd hn (hend.2 hlast) name hooks
      exact fst_bracket_of_error (hclose.trans hb')

theorem bracket_of_none (hb : b.flaw? = none) (hids : ∀ l ∈ b.labels, l.val < b.next)
    (hroom : FirstOf (b.bracketReasons base result hooks) none →
      b.next.toNat + b.bracketDraw result < UInt32.size)
    (h : FirstOf (b.bracketReasons base result hooks ++ [b.lateReason base]) none)
    (name : String) : ∃ b' r, b.bracket base result name hooks = (.ok (), b') ∧ b'.flaw? = none ∧
      b'.initLocals = true ∧ (∀ l ∈ b'.labels, l.val < b'.next) ∧
      b'.regions = b.regions ++ [r] ∧ r.handler = .cleanup := by
  obtain ⟨hnone, hlate⟩ := h.append_cases.resolve_left (by simp)
  obtain ⟨start, funnel, d, xs, slot, last, n, hle, hend, hx, hd, hn, hclose⟩ :=
    bracket_of_late hb hids hnone (hroom hnone) name
  have hlt : start < b.lengthen.size := by
    refine Nat.lt_of_le_of_ne hle fun heq ↦ ?_
    exact FirstOf.none_iff.1 hlate _ (List.mem_singleton_self _) _ ⟨rfl, hend.1 heq⟩
  obtain ⟨b', r, hb', hrest⟩ := hx.close_eq_ok (sound_lengthen hb) hd hn hlt name hooks
  exact ⟨b', r, bracket_of_ok (hclose.trans hb'), hrest⟩

end Body

end

/-- A body without flaws whose labels have all been handed out is refused for the first reason that
applies, and for no other; if none does, it is bracketed. What comes out has no flaw, its labels
have been handed out, and its last region is a new cleanup behind the old ones. -/
theorem bracket_decided (b : Body) (base : Option TypeName) (result : TypeName) (name : String)
    (hooks : Hooks) (hb : b.flaw? = none) (hids : ∀ l ∈ b.labels, l.val < b.next)
    (hroom : FirstOf (b.bracketReasons base result hooks) none →
      b.next.toNat + b.bracketDraw result < UInt32.size) :
    let reasons := b.bracketReasons base result hooks ++ [b.lateReason base]
    (∀ e, (b.bracket base result name hooks).1 = .error e ↔ FirstOf reasons (some e)) ∧
      ((b.bracket base result name hooks).1 = .ok () ↔ FirstOf reasons none) ∧
      ∀ b', b.bracket base result name hooks = (.ok (), b') →
        b'.flaw? = none ∧ b'.initLocals = true ∧ (∀ l ∈ b'.labels, l.val < b'.next) ∧
          ∃ r, b'.regions = b.regions ++ [r] ∧ r.handler = .cleanup := by
  intro reasons
  have hok (h : FirstOf reasons none) : (b.bracket base result name hooks).1 = .ok () := by
    obtain ⟨b', r, hb', -⟩ := Body.bracket_of_none hb hids hroom h name
    exact congrArg Prod.fst hb'
  obtain ⟨hrefused, haccepted⟩ := FirstOf.decides
    (fun e h ↦ Body.bracket_of_first hb hids hroom h name) fun h ↦ ⟨(), hok h⟩
  refine ⟨hrefused, ⟨fun h ↦ haccepted.1 ⟨(), h⟩, hok⟩, fun b' h ↦ ?_⟩
  obtain ⟨c, r, hc, hflaw, hinit, hnew, hregions, hr⟩ :=
    Body.bracket_of_none hb hids hroom (haccepted.1 ⟨(), by rw [h]⟩) name
  obtain ⟨-, rfl⟩ := Prod.mk.inj (h.symm.trans hc)
  exact ⟨hflaw, hinit, hnew, r, hregions, hr⟩

def chainThen (rest : List Instr) : Body where
  code := [⟨⟨0⟩, .ldarg 0⟩, ⟨⟨1⟩, .call (.constructor ⟨"App", "Base"⟩ [])⟩] ++ rest
  locals := []
  regions := []
  initLocals := false
  next := 3

theorem bracket_decided_chainThen :
    let hooks := Hooks.on ⟨"App", "Tracer"⟩
    let base := some ⟨"App", "Base"⟩
    let ending := chainThen []
    let returning := chainThen [⟨⟨2⟩, .ret⟩]
    FirstOf (ending.bracketReasons base .void hooks ++ [ending.lateReason base])
        (some (.invalid (.regionOrder 0))) ∧
      FirstOf (returning.bracketReasons base .void hooks ++ [returning.lateReason base]) none ∧
      (returning.bracket base .void "new" hooks).2.flaw? = none := by
  intro hooks base ending returning
  obtain ⟨hrefused, -, -⟩ := bracket_decided ending base .void "new" hooks (by decide +kernel)
    (by decide +kernel) fun _ ↦ by decide +kernel
  obtain ⟨-, haccepted, hsound⟩ := bracket_decided returning base .void "new" hooks
    (by decide +kernel) (by decide +kernel) fun _ ↦ by decide +kernel
  have hok : (returning.bracket base .void "new" hooks).1 = .ok () := by decide +kernel
  have hlate : (ending.bracket base .void "new" hooks).1 =
      .error (.invalid (.regionOrder 0)) := by
    decide +kernel
  clear_value hooks returning ending
  exact ⟨(hrefused _).1 hlate, haccepted.1 hok, (hsound _ (Prod.ext hok rfl)).1⟩

end CilSpan
