import CilSpan.Proofs.Span.OnePass

namespace CilSpan

theorem getElem?_flatMap_append {α : Type} {f : α → List α} {xs : List α} {x : α} {k : Nat}
    (hx : xs[k]? = some x) (hf : f x = [x]) (ys : List α) :
    (xs.flatMap f ++ ys)[((xs.take k).flatMap f).length]? = some x := by
  obtain ⟨hk, rfl⟩ := List.getElem?_eq_some_iff.1 hx
  have hsplit : xs.flatMap f = (xs.take k).flatMap f ++ xs[k] :: (xs.drop (k + 1)).flatMap f := by
    conv_lhs => rw [← List.take_append_drop k xs, List.drop_eq_getElem_cons hk]
    rw [List.flatMap_append, List.flatMap_cons, hf, List.singleton_append]
  rw [hsplit, List.append_assoc, List.getElem?_append_right (Nat.le_refl _), Nat.sub_self]
  rfl

namespace Body

/-- What an instruction of `b` gives when returns are led into a funnel. The funnel has the next
label, and the ways to it the ones behind that. -/
def led (b : Body) (result : TypeName) (i : Instr) : List Instr :=
  if i.op = .ret then
    ⟨i.label, returnOp result (.ofNat b.locals.length) (b.upcoming 0)⟩ ::
      b.stamp (1 + b.returns.idxOf i.label) (returnRest result (b.upcoming 0))
  else [i]

def funnelled (b : Body) (result : TypeName) : List Instr :=
  funnelCode result (.ofNat b.locals.length) (b.upcoming 0) (b.upcoming (1 + b.returns.length))

def ways (b : Body) (result : TypeName) : Nat := if result.isVoid then 0 else b.returns.length

def funnelDraw (b : Body) (result : TypeName) : Nat :=
  if result.isVoid then 1 else 1 + b.returns.length + 1

/-- The code of `b` with a span around it that begins in front of the instruction at `start`. -/
def bracketed (b : Body) (start : Nat) (result : TypeName) (name : String) (hooks : Hooks) :
    List Instr :=
  (b.code.take start).flatMap (b.led result) ++
    b.stamp (b.funnelDraw result) [.ldstr name, .call hooks.enter] ++
    (b.code.drop start).flatMap (b.led result) ++
    b.stamp (b.funnelDraw result + 2) [.nop, .call hooks.exit, .endfinally] ++
    b.funnelled result

def spanStart? (b : Body) : Option TypeName → Option Nat
  | none => some 0
  | some base => (b.code.findIdx? fun i ↦ i.op.constructs base).map (· + 1)

variable {b : Body} {result : TypeName} {i : Instr}

theorem freshLabel_eq_upcoming (b : Body) : b.freshLabel = b.upcoming 0 :=
  congrArg Label.mk (UInt32.add_zero b.next).symm

theorem mem_returns_iff (hb : b.labels.Nodup) (hi : i ∈ b.code) :
    i.label ∈ b.returns ↔ i.op = .ret := by
  constructor
  · intro h
    obtain ⟨j, hj, hl⟩ := List.mem_map.1 h
    obtain ⟨hj, hop⟩ := List.mem_filter.1 hj
    obtain rfl := List.inj_on_of_nodup_map hb hj hi hl
    exact of_decide_eq_true hop
  · intro h
    exact List.mem_map_of_mem (List.mem_filter.2 ⟨hi, decide_eq_true h⟩)

/-- At most one instruction comes behind a return, so the labels taken before are those of the ways
from the returns before. -/
theorem grown_eq_led (hb : b.labels.Nodup) (hi : i ∈ b.code) :
    b.grown (fun _ ↦ returnOp result (.ofNat b.locals.length) (b.upcoming 0))
      (fun _ ↦ returnRest result (b.upcoming 0)) 1 (returnRest result (b.upcoming 0)).length
      b.returns i = b.led result i := by
  simp only [grown, led, mem_returns_iff hb hi]
  split
  · refine congrArg _ ?_
    unfold returnRest
    split
    · rfl
    · rw [List.length_singleton, Nat.one_mul]
  · rfl

theorem ways_eq (b : Body) (result : TypeName) (funnel : Label) :
    (returnRest result funnel).length * b.returns.length = b.ways result := by
  unfold returnRest ways
  split
  · exact Nat.zero_mul _
  · exact Nat.one_mul _

theorem led_of_ne (h : i.op ≠ .ret) : b.led result i = [i] := if_neg h

theorem op_ne_ret_of_mem_stamp {n : Nat} {ops : List Op} (h : ∀ op ∈ ops, op ≠ .ret)
    (hi : i ∈ b.stamp n ops) : i.op ≠ .ret := by
  have hop := List.mem_map_of_mem (f := Instr.op) hi
  rw [map_op_stamp] at hop
  exact h i.op hop

theorem op_ne_ret_of_mem_led {j : Instr} (hi : i ∈ b.led result j) : i.op ≠ .ret := by
  unfold led at hi
  split at hi
  · obtain rfl | hi := List.mem_cons.1 hi
    · unfold returnOp
      split <;> exact nofun
    · refine op_ne_ret_of_mem_stamp (fun op hop ↦ ?_) hi
      unfold returnRest at hop
      split at hop
      · cases hop
      · obtain rfl := List.mem_singleton.1 hop
        exact nofun
  · rename_i hj
    rwa [List.mem_singleton.1 hi]

/-- Only the last instruction of the funnel returns. -/
theorem funnelled_ends (b : Body) (result : TypeName) : ∃ front last,
    b.funnelled result = front ++ [⟨last, .ret⟩] ∧ ∀ i ∈ front, i.op ≠ .ret := by
  unfold funnelled funnelCode
  split
  · exact ⟨[], _, rfl, List.forall_mem_nil _⟩
  · exact ⟨[_], _, rfl, List.forall_mem_singleton.2 nofun⟩

theorem bracketed_ends (b : Body) (start : Nat) (result : TypeName) (name : String)
    (hooks : Hooks) : ∃ front last, b.bracketed start result name hooks = front ++ [⟨last, .ret⟩] ∧
      ∀ i ∈ front, i.op ≠ .ret := by
  obtain ⟨front, last, hfunnel, hfront⟩ := b.funnelled_ends result
  have hled (code : List Instr) : ∀ i ∈ code.flatMap (b.led result), i.op ≠ .ret := by
    intro i hi
    obtain ⟨j, -, hi⟩ := List.mem_flatMap.1 hi
    exact op_ne_ret_of_mem_led hi
  refine ⟨_, last, by rw [bracketed, hfunnel, ← List.append_assoc], ?_⟩
  simp only [List.forall_mem_append]
  refine ⟨⟨⟨⟨hled _, fun i hi ↦ ?_⟩, hled _⟩, fun i hi ↦ ?_⟩, hfront⟩
  · exact op_ne_ret_of_mem_stamp (by simp) hi
  · exact op_ne_ret_of_mem_stamp (by simp) hi

theorem mem_bracketed (start : Nat) (name : String) (hooks : Hooks) (hi : i ∈ b.code)
    (h : i.op ≠ .ret) : i ∈ b.bracketed start result name hooks := by
  have hled {code : List Instr} (hi : i ∈ code) : i ∈ code.flatMap (b.led result) :=
    List.mem_flatMap.2 ⟨i, hi, led_of_ne h ▸ List.mem_singleton_self i⟩
  rw [← List.take_append_drop start b.code] at hi
  simp only [bracketed, List.mem_append]
  obtain hi | hi := List.mem_append.1 hi
  · exact .inl (.inl (.inl (.inl (hled hi))))
  · exact .inl (.inl (.inr (hled hi)))

/-- Every instruction gives one with its own label first. -/
theorem labels_sublist_led (b : Body) (result : TypeName) (code : List Instr) :
    (code.map Instr.label).Sublist ((code.flatMap (b.led result)).map Instr.label) := by
  induction code with
  | nil => exact .slnil
  | cons i code ih =>
    have hhead : [i.label].Sublist ((b.led result i).map Instr.label) := by
      unfold led
      split
      · exact (List.nil_sublist _).cons_cons _
      · exact .refl _
    rw [List.flatMap_cons, List.map_append]
    exact hhead.append ih

theorem labels_sublist_bracketed (b : Body) (start : Nat) (result : TypeName) (name : String)
    (hooks : Hooks) :
    b.labels.Sublist ((b.bracketed start result name hooks).map Instr.label) := by
  rw [labels, ← List.take_append_drop start b.code, List.map_append]
  simp only [bracketed, List.map_append, List.append_assoc]
  refine (b.labels_sublist_led result _).append (.trans ?_ (List.sublist_append_right _ _))
  exact (b.labels_sublist_led result _).trans (List.sublist_append_left _ _)

/-- Leading the returns into the funnel one after the other is one pass, after the label of the
funnel has been handed out. -/
theorem foldl_led {c : Body} (hc : c.code = b.code) (hnext : c.next = b.next + 1)
    (hn : (b.returns.foldl (expand (fun _ ↦ returnOp result (.ofNat b.locals.length) (b.upcoming 0))
      fun _ ↦ returnRest result (b.upcoming 0)) c).labels.Nodup) :
    let d := b.returns.foldl (expand
      (fun _ ↦ returnOp result (.ofNat b.locals.length) (b.upcoming 0))
      fun _ ↦ returnRest result (b.upcoming 0)) c
    d.code = b.code.flatMap (b.led result) ∧ d.next = b.next + .ofNat (1 + b.ways result) ∧
      d.labels.Perm (b.labelsFrom 1 (b.ways result) ++ b.labels) := by
  have hlabels : c.labels = b.labels := congrArg (List.map Instr.label) hc
  have hold : b.labels.Nodup := hlabels ▸ hn.sublist (labels_foldl_expand_sublist _ _ c b.returns)
  have hreturns : b.returns.Sublist b.labels := List.filter_sublist.map _
  obtain ⟨hcode, hpass⟩ := foldl_expand_eq hnext (hreturns.nodup hold)
    (fun l hl ↦ hlabels ▸ hreturns.subset hl) (fun _ ↦ rfl) hn
  rw [hc, List.flatMap_congr fun i hi ↦ grown_eq_led hold hi] at hcode
  rw [← b.ways_eq result (b.upcoming 0)]
  exact ⟨hcode, hlabels ▸ hpass⟩

theorem funnelDraw_lengthen (b : Body) (result : TypeName) :
    b.lengthen.funnelDraw result + 5 = b.bracketDraw result := by
  unfold funnelDraw bracketDraw
  rw [returns_lengthen]
  split <;> omega

/-- Behind the code with the ways to it the funnel stands at the end. -/
theorem stamped_funnelled {c : Body}
    (hnext : c.next = b.next + .ofNat (1 + b.ways result))
    (hperm : c.labels.Perm (b.labelsFrom 1 (b.ways result) ++ b.labels)) :
    let funnel := funnelCode result (.ofNat b.locals.length) (b.upcoming 0) c.freshLabel
    funnel = b.funnelled result ∧ Stamped b (b.funnelDraw result) { c with
      code := c.code ++ funnel
      next := if result.isVoid then c.next else c.next + 1 } := by
  cases hv : result.isVoid with
  | true =>
    simp only [ways, hv, if_true] at hnext hperm
    simp only [funnelled, funnelDraw, funnelCode, hv, if_true, true_and]
    refine ⟨hnext, ?_⟩
    rw [labels, List.map_append, coming_eq_labelsFrom, labelsFrom_one]
    exact (hperm.append_right _).trans List.perm_append_comm
  | false =>
    simp only [ways, hv, Bool.false_eq_true, if_false] at hnext hperm
    simp only [funnelled, funnelDraw, funnelCode, hv, Bool.false_eq_true, if_false]
    have hlast : c.freshLabel = b.upcoming (1 + b.returns.length) := congrArg Label.mk hnext
    refine ⟨by rw [hlast], ?_, ?_⟩
    · rw [hnext, UInt32.ofNat_add _ 1, UInt32.add_assoc]
      rfl
    · rw [coming_eq_labelsFrom, labelsFrom_add, labelsFrom_add, hlast]
      refine List.perm_iff_count.2 fun l ↦ ?_
      have hcount := hperm.count_eq l
      simp only [labels, labelsFrom_one, List.map_append, List.map_cons, List.map_nil,
        List.count_append, List.count_cons, List.count_nil, Nat.zero_add] at hcount ⊢
      omega

end Body

section

variable {b b' c d : Body} {base : Option TypeName} {result : TypeName} {name : String}
  {hooks : Hooks} {funnel : Funnel} {anchor : Option Label}

theorem funnelReturns_eq (h : Edit.funnelReturns result b = .ok funnel d) (hn : d.labels.Nodup) :
    d.code = b.code.flatMap (b.led result) ++ b.funnelled result ∧
      Stamped b (b.funnelDraw result) d ∧ d.locals = b.locals ++ resultLocals result ∧
      funnel.size = (b.funnelled result).length ∧
      (result.isVoid = false → (UInt16.ofNat b.locals.length).toNat = b.locals.length) := by
  obtain ⟨hslot, rfl, rfl⟩ := Edit.funnelReturns_eq_foldl h
  rw [Body.freshLabel_eq_upcoming] at hn ⊢
  obtain ⟨hcode, hnext, hperm⟩ := Body.foldl_led (b := b)
    (c := { b with locals := b.locals ++ resultLocals result, next := b.next + 1 }) rfl rfl
    (hn.sublist ((List.sublist_append_left _ _).map _))
  obtain ⟨hfunnel, hstamped⟩ := Body.stamped_funnelled hnext hperm
  refine ⟨congrArg₂ List.append hcode hfunnel, hstamped, ?_, congrArg List.length hfunnel, hslot⟩
  obtain ⟨code, next, hframe⟩ := Body.foldl_expand_frame
    (fun _ ↦ returnOp result (.ofNat b.locals.length) (b.upcoming 0))
    (fun _ ↦ returnRest result (b.upcoming 0))
    { b with locals := b.locals ++ resultLocals result, next := b.next + 1 } b.returns
  rw [hframe]

/-- The call that hands construction on is found again by its label, behind what the code in front
of it has become. -/
theorem spanStart_eq {n : Nat} {run : List Instr}
    (hanchor : Edit.findBaseCall base b = .ok anchor b) (hs : Edit.spanStart anchor d = .ok n d)
    (hcode : d.code = b.lengthen.code.flatMap (b.lengthen.led result) ++ run)
    (hn : d.labels.Nodup) :
    ∃ start, b.spanStart? base = some start ∧
      n = ((b.lengthen.code.take start).flatMap (b.lengthen.led result)).length := by
  cases base with
  | none =>
    injection hanchor with hanchor
    subst hanchor
    injection hs with hs
    exact ⟨0, rfl, hs.symm⟩
  | some base =>
    obtain ⟨-, k, callee, l, hfirst, hi, rfl⟩ := Edit.findBaseCall_eq_ok hanchor
    obtain ⟨-, m, hm, rfl⟩ := Edit.spanStart_eq_ok hs
    have hcall : b.lengthen.code[k]? = some ⟨l, .call callee⟩ := by
      rw [Body.getElem?_lengthen, hi]
      rfl
    -- The call itself is no return, so it stands there as it was, once and under its label.
    have hself : b.lengthen.led result ⟨l, .call callee⟩ = [⟨l, .call callee⟩] :=
      Body.led_of_ne nofun
    refine ⟨k + 1, by rw [Body.spanStart?, hfirst]; rfl, ?_⟩
    rw [List.take_add_one, hcall, List.flatMap_append, List.length_append]
    have hplace : d.code[((b.lengthen.code.take k).flatMap (b.lengthen.led result)).length]? =
        some ⟨l, .call callee⟩ := by
      rw [hcode]
      exact getElem?_flatMap_append hcall hself run
    have hfound := Body.position?_of_getElem? hn hplace
    rw [← Option.some.inj (hm.symm.trans hfound)]
    simp [hself]

theorem stamped_close {p q : Body} {n count : Nat} {before inside last : List Instr}
    (h : Stamped b n d) (hd : d.code = before ++ inside ++ last) (hcount : count = last.length)
    (hp : Edit.insert before.length [.ldstr name, .call hooks.enter] d = .ok () p)
    (hq : Edit.insertBeforeLast count [.nop, .call hooks.exit, .endfinally] p = .ok () q)
    (r : Region) :
    Stamped b (n + 5) (q.addRegion r) ∧
      (q.addRegion r).code = before ++ b.stamp n [.ldstr name, .call hooks.enter] ++ inside ++
        b.stamp (n + 2) [.nop, .call hooks.exit, .endfinally] ++ last ∧
      (q.addRegion r).locals = d.locals := by
  obtain ⟨hentry, hpcode⟩ := h.insert hp
  rw [hd, List.append_assoc before, List.take_left, List.drop_left, ← List.append_assoc] at hpcode
  obtain ⟨hexit, hqcode⟩ := hentry.insertBeforeLast hpcode hcount hq
  refine ⟨⟨hexit.next, hexit.labels⟩, hqcode, ?_⟩
  rw [Edit.insertBeforeLast_eq_ok hpcode hcount hq, Edit.insert_eq_ok hp]
  rfl

/-- A span is put around a body in one pass over the code. In front of the place where the span
begins and behind it each return becomes a `leave` to the funnel; if there is a result, it is stored
before, in a new local. No other instruction changes. The entry comes in at that place, and the exit
and the funnel at the end, where the only return is left. Labels keep their order and branches their
targets, and the new labels are the next ones, no two the same and none of them an old one. -/
theorem bracket_one_pass (h : b.bracket base result name hooks = (.ok (), b')) :
    ∃ start, b.spanStart? base = some start ∧
      b'.lengthen.code = b.lengthen.bracketed start result name hooks ∧
      b'.locals = b.locals ++ resultLocals result ∧
      (result.isVoid = false → (UInt16.ofNat b.locals.length).toNat = b.locals.length) ∧
      (∃ front last, b'.lengthen.code = front ++ [⟨last, .ret⟩] ∧ ∀ i ∈ front, i.op ≠ .ret) ∧
      b.labels.Sublist b'.labels ∧
      (∀ l jump width target, ⟨l, .branch jump width target⟩ ∈ b.code →
        ⟨l, .branch jump .long target⟩ ∈ b'.lengthen.code) ∧
      b'.labels.Perm (b.coming (b.bracketDraw result) ++ b.labels) ∧
      (b.coming (b.bracketDraw result)).Nodup ∧
      ∀ l ∈ b.coming (b.bracketDraw result), l ∉ b.labels := by
  obtain ⟨-, anchor, e, funnel, d, n, g, hanchor, hf, hs, hclose⟩ := Body.bracket_eq_ok h
  obtain rfl := (findBaseCall_same hanchor).symm
  obtain rfl := (spanStart_same hs).symm
  have hnodup := Edit.nodup_labels_of_close hclose
  obtain ⟨i, p, q, -, hp, hq, hfinish⟩ := Edit.edits_of_close hclose
  -- No edit makes a branch short, so the outcome in long form is what the edits have left.
  have hlong := (edited_close (edited_funnelReturns b.long_lengthen hf) hp hq
    ⟨.cleanup, i.label, p.freshLabel, p.freshLabel, funnel.label⟩).long
  obtain ⟨hfinal, hlocals, hlabels, hnew⟩ := Edit.code_of_finish hlong hfinish
  obtain ⟨hcode, hways, hresult, hsize, hslot⟩ := funnelReturns_eq hf hnodup
  obtain ⟨start, hstart, rfl⟩ := spanStart_eq hanchor hs hcode hnodup
  have hsplit := hcode
  rw [← List.take_append_drop start b.lengthen.code, List.flatMap_append] at hsplit
  obtain ⟨hstamped, hspan, hkept⟩ := stamped_close hways hsplit hsize hp hq
    ⟨.cleanup, i.label, p.freshLabel, p.freshLabel, funnel.label⟩
  replace hfinal : b'.lengthen.code = b.lengthen.bracketed start result name hooks :=
    hfinal.trans hspan
  have hperm : b'.labels.Perm (b.coming (b.bracketDraw result) ++ b.labels) := by
    rw [hlabels, ← b.labels_lengthen, ← b.funnelDraw_lengthen result]
    exact hstamped.labels
  obtain ⟨hcoming, -, hfresh⟩ := List.nodup_append'.1 (hperm.nodup_iff.1 hnew)
  refine ⟨start, hstart, hfinal, hlocals.trans (hkept.trans hresult), hslot, ?_, ?_,
    fun l jump width target hi ↦ ?_, hperm, hcoming, fun l hl hin ↦ hfresh hl hin⟩
  · obtain ⟨front, last, hends⟩ := b.lengthen.bracketed_ends start result name hooks
    exact ⟨front, last, hfinal ▸ hends⟩
  · have houtcome : b'.lengthen.labels =
        (b.lengthen.bracketed start result name hooks).map Instr.label := congrArg _ hfinal
    rw [← b.labels_lengthen, ← b'.labels_lengthen, houtcome]
    exact b.lengthen.labels_sublist_bracketed start result name hooks
  · have hlong : ⟨l, .branch jump .long target⟩ ∈ b.lengthen.code :=
      List.mem_map_of_mem (f := fun i ↦ { i with op := i.op.lengthen }) hi
    exact hfinal ▸ Body.mem_bracketed start name hooks hlong nofun

end

def eitherNumber : Body where
  code := [⟨⟨0⟩, .ldarg 0⟩, ⟨⟨1⟩, .branch .ifTrue .short ⟨4⟩⟩, ⟨⟨2⟩, .ldc 1⟩, ⟨⟨3⟩, .ret⟩,
    ⟨⟨4⟩, .ldc 2⟩, ⟨⟨5⟩, .ret⟩]
  locals := [.string]
  regions := []
  initLocals := false
  next := 6

theorem bracket_one_pass_eitherNumber :
    let hooks := Hooks.on ⟨"App", "Tracer"⟩
    ∃ b', eitherNumber.bracket none .int32 "Pick" hooks = (.ok (), b') ∧
      b'.locals = [.string, .int32] ∧
      b'.lengthen.code = [⟨⟨10⟩, .ldstr "Pick"⟩, ⟨⟨11⟩, .call hooks.enter⟩,
        ⟨⟨0⟩, .ldarg 0⟩, ⟨⟨1⟩, .branch .ifTrue .long ⟨4⟩⟩,
        ⟨⟨2⟩, .ldc 1⟩, ⟨⟨3⟩, .stloc 1⟩, ⟨⟨7⟩, .branch .leave .long ⟨6⟩⟩,
        ⟨⟨4⟩, .ldc 2⟩, ⟨⟨5⟩, .stloc 1⟩, ⟨⟨8⟩, .branch .leave .long ⟨6⟩⟩,
        ⟨⟨12⟩, .nop⟩, ⟨⟨13⟩, .call hooks.exit⟩, ⟨⟨14⟩, .endfinally⟩,
        ⟨⟨6⟩, .ldloc 1⟩, ⟨⟨9⟩, .ret⟩] := by
  intro hooks
  have hok : (eitherNumber.bracket none .int32 "Pick" hooks).1 = .ok () := by decide +kernel
  cases hpair : eitherNumber.bracket none .int32 "Pick" hooks with
  | mk answer b' =>
    rw [hpair] at hok
    obtain rfl : answer = _ := hok
    obtain ⟨start, hstart, hcode, hlocals, -⟩ := bracket_one_pass hpair
    obtain rfl : start = 0 := (Option.some.inj hstart).symm
    refine ⟨b', rfl, hlocals, hcode.trans ?_⟩
    decide +kernel

end CilSpan
