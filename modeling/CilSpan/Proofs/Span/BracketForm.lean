import CilSpan.Proofs.Body.Numbered
import CilSpan.Span.Bracket

namespace CilSpan

def returnOp (result : TypeName) (slot : UInt16) (funnel : Label) : Op :=
  if result.isVoid then .branch .leave .long funnel else .stloc slot

def returnRest (result : TypeName) (funnel : Label) : List Op :=
  if result.isVoid then [] else [.branch .leave .long funnel]

def funnelCode (result : TypeName) (slot : UInt16) (funnel last : Label) : List Instr :=
  if result.isVoid then [⟨funnel, .ret⟩] else [⟨funnel, .ldloc slot⟩, ⟨last, .ret⟩]

def resultLocals (result : TypeName) : List TypeName := if result.isVoid then [] else [result]

theorem leaveReturns_eq_foldl (b : Body) (funnel : Label) (ls : List Label) :
    b.leaveReturns funnel ls =
      ls.foldl (Body.expand (fun _ ↦ .branch .leave .long funnel) fun _ ↦ []) b :=
  congrArg (fun f ↦ ls.foldl f b) (funext fun b ↦ funext fun l ↦ b.setOp_eq_expand l _)

theorem storeReturns_eq_foldl (b : Body) (slot : UInt16) (funnel : Label) (ls : List Label) :
    b.storeReturns slot funnel ls = ls.foldl
      (Body.expand (fun _ ↦ .stloc slot) fun _ ↦ [.branch .leave .long funnel]) b :=
  congrArg (fun f ↦ ls.foldl f b) (funext fun b ↦ funext fun l ↦
    b.insertAfter_setOp_eq_expand l _ _)

theorem Body.foldl_returns {b d : Body} (m : Op) (f : List Op) (hd : d.code = b.code)
    (hn : ((b.returns.foldl (Body.expand (fun _ ↦ m) fun _ ↦ f) d).code.map Instr.label).Nodup)
    (start : Nat) :
    ∃ xs, (b.returns.foldl (Body.expand (fun _ ↦ m) fun _ ↦ f) d).code = rebuild xs [] ∧
      Spliced start [] (fun i ↦ if i.op = .ret then m else i.op)
        (fun i ↦ if i.op = .ret then f else []) b.code xs := by
  have hc : d.code = rebuild (b.code.map .plain) [] := by
    rw [rebuild_plain, hd, List.append_nil]
  obtain ⟨xs, hxs, hs⟩ := (Spliced.plain start b.code).foldl_expand hc hn
  exact ⟨xs, hxs, by simpa using hs⟩

theorem Op.lengthen_eq_ret {op : Op} : op.lengthen = .ret ↔ op = .ret := by
  cases op <;> simp [Op.lengthen, Op.withWidth]

theorem Op.exists_call_of_constructs {op : Op} {base : TypeName} (h : op.constructs base = true) :
    ∃ callee, op = .call callee := by
  cases op with
  | call callee => exact ⟨callee, rfl⟩
  | _ => cases h

namespace Edit

theorem funnelReturns_eq_foldl {result : TypeName} {b d : Body} {funnel : Funnel}
    (h : funnelReturns result b = .ok funnel d) :
    let slot : UInt16 := .ofNat b.locals.length
    let c := b.returns.foldl (Body.expand (fun _ ↦ returnOp result slot b.freshLabel)
        fun _ ↦ returnRest result b.freshLabel)
      { b with locals := b.locals ++ resultLocals result, next := b.next + 1 }
    (result.isVoid = false → slot.toNat = b.locals.length) ∧
      funnel = ⟨b.freshLabel, (funnelCode result slot b.freshLabel c.freshLabel).length⟩ ∧
      d = { c with
        code := c.code ++ funnelCode result slot b.freshLabel c.freshLabel
        next := if result.isVoid then c.next else c.next + 1 } := by
  unfold funnelReturns at h
  rw [get_bind] at h
  split at h
  · rename_i hv
    simp only [create_bind, modify_bind, leaveReturns_eq_foldl] at h
    injection h with hf hd
    refine ⟨by simp [hv], ?_, ?_⟩
    · simp only [← hf, funnelCode, hv, if_true, List.length_singleton]
    · simp only [← hd, returnOp, returnRest, resultLocals, funnelCode, hv, if_true,
        List.append_nil, Body.append]
  · rename_i hv
    obtain ⟨slot, e, he, h⟩ := bind_eq_ok h
    obtain ⟨hslot, rfl⟩ := addLocal_eq_ok he
    obtain rfl : slot = .ofNat b.locals.length := by rw [← hslot, UInt16.ofNat_toNat]
    simp only [create_bind, modify_bind, storeReturns_eq_foldl] at h
    injection h with hf hd
    refine ⟨fun _ ↦ hslot, ?_, ?_⟩
    · simp only [← hf, funnelCode, if_neg hv, List.length_cons, List.length_nil]
      rfl
    · simp only [← hd, returnOp, returnRest, resultLocals, funnelCode, if_neg hv, Body.push,
        Body.append, Body.create, List.append_assoc, List.cons_append, List.nil_append]
      rfl

theorem funnelReturns_eq_ok {result : TypeName} {b c : Body} {funnel : Funnel}
    (h : funnelReturns result b = .ok funnel c) :
    ∃ (code : List Instr) (slot : UInt16) (last : Label) (next : UInt32),
      c = { b with
        code := code ++ funnelCode result slot funnel.label last
        locals := b.locals ++ resultLocals result
        next } ∧
      funnel.size = (funnelCode result slot funnel.label last).length ∧
      (result.isVoid = false → slot.toNat = b.locals.length) ∧
      ((code.map Instr.label).Nodup → ∀ start, ∃ xs, code = rebuild xs [] ∧
        Spliced start [] (fun i ↦ if i.op = .ret then returnOp result slot funnel.label else i.op)
          (fun i ↦ if i.op = .ret then returnRest result funnel.label else []) b.code xs) := by
  obtain ⟨hslot, rfl, rfl⟩ := funnelReturns_eq_foldl h
  generalize UInt16.ofNat b.locals.length = slot at hslot ⊢
  have hreturns := Body.foldl_returns (b := b)
    (d := { b with locals := b.locals ++ resultLocals result, next := b.next + 1 })
    (returnOp result slot b.freshLabel) (returnRest result b.freshLabel) rfl
  obtain ⟨code, next, hframe⟩ := Body.foldl_expand_frame (fun _ ↦ returnOp result slot b.freshLabel)
    (fun _ ↦ returnRest result b.freshLabel)
    { b with locals := b.locals ++ resultLocals result, next := b.next + 1 } b.returns
  rw [hframe] at hreturns ⊢
  exact ⟨code, slot, ⟨next⟩, _, rfl, rfl, hslot, hreturns⟩

def close (start : Nat) (funnel : Funnel) (name : String) (hooks : Hooks) : Edit Unit := do
  let guarded ← labelAt start
  insert start [.ldstr name, .call hooks.enter]
  let cleanup := (← get).freshLabel
  insertBeforeLast funnel.size [.nop, .call hooks.exit, .endfinally]
  modify (·.addRegion ⟨.cleanup, guarded, cleanup, cleanup, funnel.label⟩)
  finish

/-- The edits of a span that is not refused, one by one. -/
theorem edits_of_close {start : Nat} {funnel : Funnel} {name : String} {hooks : Hooks} {b c : Body}
    (h : close start funnel name hooks b = .ok () c) :
    ∃ i d e, b.code[start]? = some i ∧ insert start [.ldstr name, .call hooks.enter] b = .ok () d ∧
      insertBeforeLast funnel.size [.nop, .call hooks.exit, .endfinally] d = .ok () e ∧
      finish (e.addRegion ⟨.cleanup, i.label, d.freshLabel, d.freshLabel, funnel.label⟩) =
        .ok () c := by
  unfold close at h
  obtain ⟨guarded, b', hb', h₁⟩ := bind_eq_ok h
  obtain ⟨rfl, i, hi, rfl⟩ := labelAt_eq_ok hb'
  obtain ⟨⟨⟩, d, hd, h₂⟩ := bind_eq_ok h₁
  rw [get_bind] at h₂
  obtain ⟨⟨⟩, e, he, h₃⟩ := bind_eq_ok h₂
  rw [modify_bind] at h₃
  exact ⟨i, d, e, hi, hd, he, h₃⟩

theorem close_eq {start : Nat} {funnel : Funnel} (name : String) (hooks : Hooks) {b : Body}
    {front last : List Instr} {i : Instr} (hb : b.code = front ++ last)
    (hl : funnel.size = last.length) (hs : start ≤ front.length) (hi : b.code[start]? = some i) :
    ∃ (run : List Instr) (marker exit done : Label) (c : Body),
      run.map Instr.op = [.ldstr name, .call hooks.enter] ∧
      (∃ next, c = { b with
        code := (front.take start ++ run ++ front.drop start) ++
          (⟨marker, .nop⟩ :: ⟨exit, .call hooks.exit⟩ :: ⟨done, .endfinally⟩ :: last)
        next }) ∧
      (∀ n, b.Numbered n [] → n + 5 < UInt32.size → c.Numbered (n + 5) []) ∧
      close start funnel name hooks b =
        finish (c.addRegion ⟨.cleanup, i.label, marker, marker, funnel.label⟩) := by
  have hsize : start ≤ b.size := by
    rw [Body.size, hb, List.length_append]
    exact hs.trans (Nat.le_add_right _ _)
  obtain ⟨e, he⟩ := exists_insert hsize [.ldstr name, .call hooks.enter]
  have he' := insert_eq_ok he
  generalize hrun : (b.createAll [.ldstr name, .call hooks.enter]).1 = run at he'
  have hcode : e.code = (front.take start ++ run ++ front.drop start) ++ last := by
    simp only [he', hb, List.take_append_of_le_length hs, List.drop_append_of_le_length hs,
      List.append_assoc]
  have hroom : funnel.size ≤ e.size := by
    rw [Body.size, hcode, List.length_append, hl]
    exact Nat.le_add_left _ _
  obtain ⟨c, hc⟩ := exists_insertBeforeLast hroom [.nop, .call hooks.exit, .endfinally]
  have hc' := insertBeforeLast_eq_ok hcode hl hc
  have hlabel : labelAt start b = .ok i.label b := by simp only [labelAt, hi]
  refine ⟨run, ⟨e.next⟩, ⟨e.next + 1⟩, ⟨e.next + 1 + 1⟩, c, hrun ▸ b.map_op_createAll _,
    ⟨e.next + 1 + 1 + 1, ?_⟩, fun n hn hlt ↦ ?_, ?_⟩
  · rw [hc', he']
    simp [Body.createAll, Body.create, Body.freshLabel]
  · have hinserted := hn.insert (by simp only [List.length_cons, List.length_nil]; omega) he
    exact hinserted.insertBeforeLast (by simpa using hlt) hc
  · unfold close
    rw [bind_of_ok hlabel, bind_of_ok he, get_bind, bind_of_ok hc, modify_bind]
    rfl

theorem close_eq_ok {start : Nat} {funnel : Funnel} {name : String} {hooks : Hooks} {b c : Body}
    {front last : List Instr} (hb : b.code = front ++ last) (hl : funnel.size = last.length)
    (hs : start ≤ front.length) (h : close start funnel name hooks b = .ok () c) :
    ∃ (i : Instr) (run : List Instr) (marker exit done : Label) (next : UInt32),
      b.code[start]? = some i ∧ run.map Instr.op = [.ldstr name, .call hooks.enter] ∧
      c.flaw? = none ∧
      c.lengthen = Body.lengthen { b with
        code := (front.take start ++ run ++ front.drop start) ++
          (⟨marker, .nop⟩ :: ⟨exit, .call hooks.exit⟩ :: ⟨done, .endfinally⟩ :: last)
        regions := b.regions ++ [⟨.cleanup, i.label, marker, marker, funnel.label⟩]
        initLocals := true
        next } := by
  obtain ⟨i, -, -, hi, -⟩ := edits_of_close h
  obtain ⟨run, marker, exit, done, g, hrun, ⟨next, rfl⟩, -, hclose⟩ :=
    close_eq name hooks hb hl hs hi
  rw [hclose] at h
  obtain ⟨hlen, hflaw⟩ := finish_eq_ok h
  exact ⟨i, run, marker, exit, done, next, hi, hrun, hflaw, hlen⟩

theorem nodup_labels_of_close {start : Nat} {funnel : Funnel} {name : String} {hooks : Hooks}
    {b c : Body} (h : close start funnel name hooks b = .ok () c) : b.labels.Nodup := by
  obtain ⟨i, d, e, -, hd, he, hfinish⟩ := edits_of_close h
  obtain ⟨hlen, hflaw⟩ := finish_eq_ok hfinish
  have hlabels : c.labels = e.labels := by
    rw [← Body.labels_lengthen c, hlen, Body.labels_lengthen]
    rfl
  refine (Body.flaw?_eq_none.1 hflaw).nodup.sublist ?_
  rw [hlabels]
  refine (labels_sublist_of_insert hd).trans ?_
  unfold insertBeforeLast at he
  split at he
  · exact labels_sublist_of_insert he
  · cases he

theorem findBaseCall_eq_ok {base : TypeName} {l? : Option Label} {b c : Body}
    (h : findBaseCall (some base) b = .ok l? c) :
    c = b ∧ ∃ k callee l, b.code.findIdx? (fun i ↦ i.op.constructs base) = some k ∧
      b.code[k]? = some ⟨l, .call callee⟩ ∧ l? = some l := by
  simp only [findBaseCall] at h
  split at h
  · rename_i l hl
    injection h with h₁ h₂
    obtain ⟨⟨l, op⟩, hi, rfl⟩ := Option.map_eq_some_iff.1 hl
    obtain ⟨hop, k, hk, hi, hfirst⟩ := List.find?_eq_some_iff_getElem.1 hi
    obtain ⟨callee, rfl⟩ := Op.exists_call_of_constructs hop
    refine ⟨h₂.symm, k, callee, l, ?_, ?_, h₁.symm⟩
    · refine List.findIdx?_eq_some_iff_getElem.2 ⟨hk, by rw [hi]; exact hop, fun j hj ↦ ?_⟩
      simpa using hfirst j hj
    · rw [List.getElem?_eq_getElem hk, hi]
  · cases h

theorem spanStart_eq_ok {l : Label} {start : Nat} {b c : Body}
    (h : spanStart (some l) b = .ok start c) :
    c = b ∧ ∃ n, b.position? l = some n ∧ start = n + 1 := by
  simp only [spanStart] at h
  split at h
  · rename_i n hn
    split at h
    · injection h with h₁ h₂
      exact ⟨h₂.symm, n, hn, h₁.symm⟩
    · cases h
  · cases h

end Edit

/-- The new parts of a bracketed body. -/
structure Frame where
  pieces : List Piece
  slot : UInt16
  marker : Label
  exit : Label
  done : Label
  funnel : Label
  last : Label

def Frame.tail (x : Frame) (result : TypeName) (hooks : Hooks) : List Instr :=
  ⟨x.marker, .nop⟩ :: ⟨x.exit, .call hooks.exit⟩ :: ⟨x.done, .endfinally⟩ ::
    funnelCode result x.slot x.funnel x.last

/-- `c` is `b` with a span around it that begins in front of the instruction at `start`. -/
structure Framed (b c : Body) (start : Nat) (result : TypeName) (name : String) (hooks : Hooks)
    (x : Frame) : Prop where
  code : c.code = rebuild x.pieces (x.tail result hooks)
  spliced : Spliced start [.ldstr name, .call hooks.enter]
    (fun i ↦ if i.op = .ret then returnOp result x.slot x.funnel else i.op)
    (fun i ↦ if i.op = .ret then returnRest result x.funnel else []) b.code x.pieces
  locals : c.locals = b.locals ++ resultLocals result
  slot : result.isVoid = false → x.slot.toNat = b.locals.length
  regions : ∃ i, b.code[start]? = some i ∧
    c.regions = b.regions ++ [⟨.cleanup, i.label, x.marker, x.marker, x.funnel⟩]

structure Funnelled (b d : Body) (result : TypeName) (funnel : Funnel) (start : Nat)
    (xs : List Piece) (slot : UInt16) (last : Label) : Prop where
  eq : ∃ next, d = { b with
    code := rebuild xs (funnelCode result slot funnel.label last)
    locals := b.locals ++ resultLocals result
    next }
  size : funnel.size = (funnelCode result slot funnel.label last).length
  spliced : Spliced start []
    (fun i ↦ if i.op = .ret then returnOp result slot funnel.label else i.op)
    (fun i ↦ if i.op = .ret then returnRest result funnel.label else []) b.code xs
  slot : result.isVoid = false → slot.toNat = b.locals.length

section

variable {b b' d : Body} {result : TypeName} {name : String} {hooks : Hooks} {funnel : Funnel}
  {start : Nat} {xs : List Piece} {slot : UInt16} {last : Label}

theorem exists_funnelled (hf : Edit.funnelReturns result b = .ok funnel d) (hn : d.labels.Nodup)
    (start : Nat) : ∃ xs slot last, Funnelled b d result funnel start xs slot last := by
  obtain ⟨code, slot, last, next, rfl, hsize, hslot, hx⟩ := Edit.funnelReturns_eq_ok hf
  have hcode : (code.map Instr.label).Nodup :=
    hn.sublist ((List.sublist_append_left code _).map _)
  obtain ⟨xs, rfl, hs⟩ := hx hcode start
  exact ⟨xs, slot, last, ⟨next, by rw [rebuild_nil_append]⟩, hsize, hs, hslot⟩

namespace Funnelled

variable (h : Funnelled b d result funnel start xs slot last)
include h

/-- The span cannot begin at the funnel, which stands behind the end of the protected range. -/
theorem close_funnel_ne_ok : Edit.close (arrival xs b.size) funnel name hooks d ≠ .ok () b' := by
  intro hclose
  obtain ⟨⟨next, rfl⟩, hsize, hs, -⟩ := h
  have harrival : arrival xs b.size = (rebuild xs []).length := by
    rw [Body.size, ← hs.length, arrival_length]
  obtain ⟨op, rest, hfunnel⟩ : ∃ op rest,
      funnelCode result slot funnel.label last = ⟨funnel.label, op⟩ :: rest := by
    unfold funnelCode
    split
    · exact ⟨_, _, rfl⟩
    · exact ⟨_, _, rfl⟩
  obtain ⟨i, run, marker, exit, done, next', hi, hrun, hflaw, hlen⟩ :=
    Edit.close_eq_ok rebuild_nil_append.symm hsize harrival.le hclose
  have hsound := Body.sound_of_lengthen_eq hlen hflaw
  have hlabel : i.label = funnel.label := by
    dsimp only at hi
    rw [harrival, ← rebuild_nil_append, List.getElem?_append_right (le_refl _), Nat.sub_self,
      hfunnel] at hi
    exact congrArg Instr.label (Option.some.inj hi).symm
  generalize (rebuild xs []).take _ ++ run ++ (rebuild xs []).drop _ = front at hsound
  have hle : front.length + 3 ≤ front.length :=
    hsound.tryStart_le (List.mem_append_right _ (List.mem_singleton_self _))
      (i := ⟨funnel.label, op⟩) (j := ⟨marker, .nop⟩) (by simp [hfunnel]) hlabel.symm (by simp) rfl
  omega

/-- With the span to begin at an old instruction, the bracket is put around the old code. -/
theorem framed (hle : start ≤ b.size)
    (hclose : Edit.close (arrival xs start) funnel name hooks d = .ok () b') :
    ∃ c x, b'.lengthen = c.lengthen ∧ c.Sound ∧ Framed b c start result name hooks x := by
  have hlt : start < b.size := by
    refine Nat.lt_of_le_of_ne hle fun hstart ↦ h.close_funnel_ne_ok (hstart ▸ hclose)
  obtain ⟨⟨next, rfl⟩, hsize, hs, hslot⟩ := h
  have hlen : start < xs.length := hs.length ▸ hlt
  obtain ⟨y, hy, hm, -, ha⟩ := hs.piece start _ (List.getElem?_eq_getElem hlt)
  have hahead : y.ahead = [] := by simpa using ha
  have harrival : place xs start = arrival xs start := by
    rw [place_eq_arrival hy, hahead]
    rfl
  have hmain : (rebuild xs [])[arrival xs start]? = some y.main := harrival ▸ getElem?_main hy
  have harr : arrival xs start ≤ (rebuild xs []).length :=
    (List.getElem?_eq_some_iff.1 hmain).1.le
  obtain ⟨i, run, marker, exit, done, next', hi, hrun, hflaw, hlen'⟩ :=
    Edit.close_eq_ok rebuild_nil_append.symm hsize harr hclose
  refine ⟨_, ⟨xs.modify start (·.putAhead run), slot, marker, exit, done, funnel.label, last⟩,
    hlen', Body.sound_of_lengthen_eq hlen' hflaw, ?_, ?_, rfl, hslot, ?_⟩
  · simp only [splice_arrival run hlen, rebuild_nil_append]
    rfl
  · exact hrun ▸ hs.putAhead run
  · have hi' : (rebuild xs (funnelCode result slot funnel.label last))[arrival xs start]? =
        some y.main := harrival ▸ getElem?_main hy
    obtain rfl : y.main = i := Option.some_inj.1 (hi'.symm.trans hi)
    exact ⟨_, List.getElem?_eq_getElem hlt, by rw [hm]⟩

end Funnelled

theorem Body.bracket_eq_ok {base : Option TypeName}
    (h : b.bracket base result name hooks = (.ok (), b')) :
    b.hooked? hooks = none ∧ ∃ anchor e funnel d start g, Edit.findBaseCall base b = .ok anchor e ∧
      Edit.funnelReturns result e.lengthen = .ok funnel d ∧
      Edit.spanStart anchor d = .ok start g ∧ Edit.close start funnel name hooks g = .ok () b' := by
  have he : Edit.bracket base result name hooks b = .ok () b' := by
    unfold Body.bracket at h
    split at h
    · rename_i hr
      obtain ⟨-, rfl⟩ := Prod.mk.inj h
      exact hr
    · cases h
  unfold Edit.bracket at he
  obtain ⟨⟨⟩, d, hd, h₁⟩ := Edit.bind_eq_ok he
  obtain ⟨rfl, -, hhook⟩ := Edit.enter_eq_ok hd
  obtain ⟨anchor, e, hanchor, h₂⟩ := Edit.bind_eq_ok h₁
  rw [Edit.modify_bind] at h₂
  obtain ⟨funnel, g, hf, h₃⟩ := Edit.bind_eq_ok h₂
  obtain ⟨start, k, hs, h₄⟩ := Edit.bind_eq_ok h₃
  exact ⟨hhook, anchor, e, funnel, g, start, k, hanchor, hf, hs, h₄⟩

end

theorem bracket_eq_ok {b b' : Body} {result : TypeName} {name : String} {hooks : Hooks}
    (h : b.bracket none result name hooks = (.ok (), b')) :
    ∃ c x, b'.lengthen = c.lengthen ∧ c.Sound ∧ b.hooked? hooks = none ∧
      Framed b.lengthen c 0 result name hooks x := by
  obtain ⟨hhook, anchor, e, funnel, d, start, g, hanchor, hf, hs, hclose⟩ := Body.bracket_eq_ok h
  injection hanchor with hanchor he
  subst hanchor he
  injection hs with hs hg
  subst hs hg
  obtain ⟨xs, slot, last, hx⟩ := exists_funnelled hf (Edit.nodup_labels_of_close hclose) 0
  have hzero : arrival xs 0 = 0 := arrival_zero
  rw [← hzero] at hclose
  obtain ⟨c, x, hlen, hc, hframed⟩ := hx.framed (Nat.zero_le _) hclose
  exact ⟨c, x, hlen, hc, hhook, hframed⟩

def Body.ChainsAt (b : Body) (base : TypeName) (k : Nat) (callee : Callee) : Prop :=
  b.code.findIdx? (fun i ↦ i.op.constructs base) = some k ∧
    b.code[k]?.map Instr.op = some (.call callee)

/-- In a constructor the span begins behind the call that hands construction on. -/
theorem bracket_base_eq_ok {b b' : Body} {base result : TypeName} {name : String} {hooks : Hooks}
    (h : b.bracket (some base) result name hooks = (.ok (), b')) :
    ∃ k callee c x, b.ChainsAt base k callee ∧ b'.lengthen = c.lengthen ∧ c.Sound ∧
      b.hooked? hooks = none ∧ Framed b.lengthen c (k + 1) result name hooks x := by
  obtain ⟨hhook, anchor, e, funnel, d, start, g, hanchor, hf, hs, hclose⟩ := Body.bracket_eq_ok h
  obtain ⟨rfl, k, callee, l, hfirst, hi, rfl⟩ := Edit.findBaseCall_eq_ok hanchor
  obtain ⟨rfl, n, hn, rfl⟩ := Edit.spanStart_eq_ok hs
  have hnodup := Edit.nodup_labels_of_close hclose
  obtain ⟨xs, slot, last, hx⟩ := exists_funnelled hf hnodup (k + 1)
  have hi' : e.lengthen.code[k]? = some ⟨l, .call callee⟩ := by
    rw [Body.getElem?_lengthen, hi]
    rfl
  have harrival : arrival xs (k + 1) = n + 1 := by
    obtain ⟨y, hy, hm, hbehind, -⟩ := hx.spliced.piece k _ hi'
    obtain ⟨next, rfl⟩ := hx.eq
    have hplace := Body.position?_of_getElem? hnodup (getElem?_main hy)
    rw [hm, hn] at hplace
    rw [if_neg nofun, List.map_eq_nil_iff] at hbehind
    rw [arrival_succ hy, hbehind, Option.some.inj hplace]
    rfl
  rw [← harrival] at hclose
  obtain ⟨c, x, hlen, hc, hframed⟩ := hx.framed (List.getElem?_eq_some_iff.1 hi').1 hclose
  exact ⟨k, callee, c, x, ⟨hfirst, by rw [hi]; rfl⟩, hlen, hc, hhook, hframed⟩

end CilSpan
