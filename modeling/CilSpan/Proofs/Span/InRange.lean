import CilSpan.Proofs.Span.BracketForm
import CilSpan.Proofs.Span.CorrelateForm
import CilSpan.Proofs.Span.Strict

namespace CilSpan

variable {α β : Type}

def minus? (m n : Nat) : Option Nat := if n ≤ m then some (m - n) else none

def slice? (code : List Instr) (start stop : Nat) : Option (List Instr) :=
  if start ≤ stop ∧ stop ≤ code.length then some ((code.take stop).drop start) else none

def Body.completes? (b : Body) (pattern : StepPattern) (funnel : Label) (i : Instr)
    (position : Nat) : Option Bool := do
  let before ← slice? b.code (position - pattern.lookback.toNat) position
  return i.op.target? = some funnel || before.any fun i ↦ i.op.callsNamed pattern.faultReport

namespace Strict

def funnelReturns (result : TypeName) : Strict Funnel := do
  let returns := (← get).returns
  if result.isVoid then
    let exit ← (Edit.create .ret).strict
    modify fun b ↦ (b.leaveReturns exit.label returns).append [exit]
    return ⟨exit.label, 1⟩
  else
    let slot ← (Edit.addLocal result).strict
    let load ← (Edit.create (.ldloc slot)).strict
    returns.forM fun l ↦ do
      modify (·.setOp l (.stloc slot))
      insertAfter l [.branch .leave .long load.label]
    modify fun b ↦ (b.append [load]).push .ret |>.2
    return ⟨load.label, 2⟩

def close (start : Nat) (funnel : Funnel) (name : String) (hooks : Hooks) : Strict Unit := do
  let guarded ← need (← get).code[start]?
  let _ ← insert start [.ldstr name, .call hooks.enter]
  let back ← need (minus? (← get).size funnel.size)
  let handler ← insert back [.nop, .call hooks.exit, .endfinally]
  let cleanup ← need handler.head?
  modify (·.addRegion ⟨.cleanup, guarded.label, cleanup, cleanup, funnel.label⟩)
  finish

def bracket (base : Option TypeName) (result : TypeName) (name : String) (hooks : Hooks) :
    Strict Unit := do
  (Edit.enter hooks).strict
  let baseCall ← (Edit.findBaseCall base).strict
  modify Body.lengthen
  let funnel ← funnelReturns result
  let start ← (Edit.spanStart baseCall).strict
  close start funnel name hooks

def exits (pattern : StepPattern) : Strict Exits := do
  let b ← get
  match b.funnel? with
  | none => throw (.refused .noFunnel)
  | some funnel =>
    let judged ← need (b.leaves.mapM fun (i, n) ↦ do
      return (i.label, ← b.completes? pattern funnel i n))
    let completions := (judged.filter fun x ↦ x.2).map fun x ↦ x.1
    if completions.isEmpty then throw (.refused (.noCompletion funnel))
    else return ⟨funnel, completions, (judged.filter fun x ↦ !x.2).map fun x ↦ x.1⟩

def stepEntry (pattern : StepPattern) : Strict Nat := do
  let b ← get
  match b.code.findIdx? fun i ↦ i.op.loadsState pattern.stateMarker with
  | none => return 0
  | some position =>
    let load ← need b.code[position]?
    match minus? position 1 with
    | none => throw (.refused (.oddStateLoad load.label))
    | some before =>
      let i ← need b.code[before]?
      if i.op = .ldarg 0 then return before else throw (.refused (.oddStateLoad load.label))

def correlate (id : Int32) (name : String) (hooks : Hooks) (pattern : StepPattern) :
    Strict Exits := do
  (Edit.enter hooks).strict
  modify Body.lengthen
  let exits ← exits pattern
  let entry ← stepEntry pattern
  let _ ← insert entry (correlatedCall id name hooks.asyncEnter)
  exits.completions.forM fun l ↦ do
    let _ ← insertAhead l (correlatedCall id name hooks.asyncExit)
  finish
  return exits

/-- From this body on the strict edit does what the other does, and both find every place that they
look for. -/
structure Mirrors (y : Strict α) (x : Edit α) (b : Body) : Prop where
  same : y b = x.strict b
  inRange : ∀ e c, x b ≠ .error (.outOfRange e) c

variable {b c : Body} {x : Edit α} {f : α → Edit β} {y : Strict α} {g : α → Strict β}

namespace Mirrors

theorem bind (h : Mirrors y x b) (hf : ∀ a c, x b = .ok a c → Mirrors (g a) (f a) c) :
    Mirrors (y >>= g) (x >>= f) b := by
  obtain ⟨hsame, hrange⟩ := h
  unfold Edit.strict at hsame
  cases hx : x b with
  | ok a c =>
    rw [hx] at hsame
    obtain ⟨hs, hr⟩ := hf a c hx
    refine ⟨?_, ?_⟩
    · rw [bind_of_ok hsame, hs]
      simp only [Edit.strict, Edit.bind_of_ok hx]
    · rw [Edit.bind_of_ok hx]
      exact hr
  | error e c =>
    rw [hx] at hsame
    refine ⟨?_, ?_⟩
    · rw [bind_of_error hsame]
      simp only [Edit.strict, Edit.bind_of_error hx]
    · rw [Edit.bind_of_error hx]
      intro e' c' h'
      obtain ⟨rfl, -⟩ := EStateM.Result.error.inj h'
      exact hrange e' c hx

theorem of_eq {y' : Strict α} {x' : Edit α} (hy : y b = y' c) (hx : x b = x' c)
    (h : Mirrors y' x' c) : Mirrors y x b := by
  obtain ⟨hsame, hrange⟩ := h
  refine ⟨?_, hx ▸ hrange⟩
  rw [hy, hsame, Edit.strict, Edit.strict, hx]

theorem answer (h : Mirrors y x b) : (∃ a c, x b = .ok a c ∧ y b = .ok a c) ∨
    ∃ e c, (∀ place, e ≠ .outOfRange place) ∧ x b = .error e c ∧ y b = .error (.refused e) c := by
  obtain ⟨hsame, hrange⟩ := h
  unfold Edit.strict at hsame
  cases hx : x b with
  | ok a c =>
    rw [hx] at hsame
    exact .inl ⟨a, c, rfl, hsame⟩
  | error e c =>
    rw [hx] at hsame
    exact .inr ⟨e, c, fun place he ↦ hrange place c (he ▸ hx), rfl, hsame⟩

theorem strict (h : ∀ e c, x b ≠ .error (.outOfRange e) c) : Mirrors x.strict x b := ⟨rfl, h⟩

theorem modify (m : Body → Body) : Mirrors (modify m : Strict Unit) (modify m : Edit Unit) b :=
  ⟨rfl, nofun⟩

theorem pure (a : α) : Mirrors (pure a : Strict α) (pure a : Edit α) b := ⟨rfl, nofun⟩

theorem finish (b : Body) : Mirrors finish Edit.finish b := by
  refine ⟨finish_eq b, fun e c h ↦ ?_⟩
  rw [Edit.finish_eq] at h
  split at h <;> cases h

theorem enter (hooks : Hooks) (b : Body) :
    Mirrors (Edit.enter hooks).strict (Edit.enter hooks) b := by
  refine .strict fun e c h ↦ ?_
  unfold Edit.enter at h
  split at h
  · cases h
  · split at h <;> cases h

theorem findBaseCall (base : Option TypeName) (b : Body) :
    Mirrors (Edit.findBaseCall base).strict (Edit.findBaseCall base) b := by
  refine .strict fun e c h ↦ ?_
  unfold Edit.findBaseCall at h
  split at h
  · cases h
  · split at h <;> cases h

theorem addLocal (type : TypeName) (b : Body) :
    Mirrors (Edit.addLocal type).strict (Edit.addLocal type) b := by
  refine .strict fun e c h ↦ ?_
  unfold Edit.addLocal at h
  split at h <;> cases h

theorem spanStart (baseCall : Option Label) (b : Body) :
    Mirrors (Edit.spanStart baseCall).strict (Edit.spanStart baseCall) b := by
  refine .strict fun e c h ↦ ?_
  unfold Edit.spanStart at h
  split at h
  · cases h
  · split at h
    · split at h <;> cases h
    · cases h

end Mirrors

theorem forM_eq {m : Label → Strict Unit} {step : Body → Label → Body}
    (h : ∀ b l, m l b = .ok () (step b l)) (ls : List Label) (b : Body) :
    ls.forM m b = .ok () (ls.foldl step b) := by
  induction ls generalizing b with
  | nil => rfl
  | cons l ls ih =>
    have hfirst : (l :: ls).forM m b = ls.forM m (step b l) := bind_of_ok (h b l)
    rw [hfirst, ih, List.foldl_cons]

theorem mirrors_funnelReturns (result : TypeName) (b : Body) :
    Mirrors (funnelReturns result) (Edit.funnelReturns result) b := by
  unfold funnelReturns Edit.funnelReturns
  refine .of_eq get_bind Edit.get_bind ?_
  split
  · exact .of_eq create_bind Edit.create_bind ((Mirrors.modify _).bind fun _ _ _ ↦ .pure _)
  · refine (Mirrors.addLocal result b).bind fun slot c _ ↦ ?_
    refine .of_eq create_bind Edit.create_bind ?_
    have hstore := forM_eq (m := fun l ↦ do
        modify (·.setOp l (.stloc slot))
        insertAfter l [.branch .leave .long c.freshLabel])
      (fun b l ↦ by rw [modify_bind, insertAfter_eq]) b.returns
    exact .of_eq ((bind_of_ok (hstore _)).trans modify_bind) Edit.modify_bind (.pure _)

/-- Behind the funnel's instructions there are no others. -/
theorem size_of_funnelReturns {result : TypeName} {funnel : Funnel}
    (h : Edit.funnelReturns result b = .ok funnel c) : funnel.size ≤ c.size ∧ 0 < c.size := by
  obtain ⟨code, slot, last, next, rfl, hsize, -⟩ := Edit.funnelReturns_eq_ok h
  have hpos : 0 < (funnelCode result slot funnel.label last).length := by
    unfold funnelCode
    split <;> exact Nat.succ_pos _
  simp only [Body.size, List.length_append]
  omega

theorem spanStart_lt {baseCall : Option Label} {start : Nat} (hb : 0 < b.size)
    (h : Edit.spanStart baseCall b = .ok start c) : c = b ∧ start < b.size := by
  unfold Edit.spanStart at h
  split at h
  · injection h with hs hc
    exact ⟨hc.symm, hs ▸ hb⟩
  · split at h
    · split at h
      · rename_i hlt
        injection h with hs hc
        exact ⟨hc.symm, hs ▸ hlt⟩
      · cases h
    · cases h

theorem minus?_of_le {m n : Nat} (h : n ≤ m) : minus? m n = some (m - n) := if_pos h

/-- The funnel is still at the end when the handler is put in front of it. -/
theorem mirrors_close {start : Nat} {funnel : Funnel} (name : String) (hooks : Hooks)
    (hstart : start < b.size) (hfunnel : funnel.size ≤ b.size) :
    Mirrors (close start funnel name hooks) (Edit.close start funnel name hooks) b := by
  have hi : b.code[start]? = some b.code[start] := List.getElem?_eq_getElem hstart
  have hlabel : Edit.labelAt start b = .ok b.code[start].label b := by
    simp only [Edit.labelAt, hi]
  obtain ⟨c, hc, hsize, hc'⟩ :=
    exists_insert (Nat.le_of_lt hstart) [.ldstr name, .call hooks.enter]
  have hroom : funnel.size ≤ c.size := by omega
  obtain ⟨d, hd, -, hd'⟩ :=
    exists_insert (Nat.sub_le c.size funnel.size) [.nop, .call hooks.exit, .endfinally]
  have hback : Edit.insertBeforeLast funnel.size [.nop, .call hooks.exit, .endfinally] c =
      .ok () d := by
    rw [Edit.insertBeforeLast, if_pos hroom, hd]
  let region : Region :=
    ⟨.cleanup, b.code[start].label, c.freshLabel, c.freshLabel, funnel.label⟩
  refine .of_eq (c := d.addRegion region) ?_ ?_ (.finish _)
  · rw [close, get_bind, need_bind hi, bind_of_ok hc', get_bind, need_bind (minus?_of_le hroom),
      bind_of_ok hd']
    rfl
  · rw [Edit.close, Edit.bind_of_ok hlabel, Edit.bind_of_ok hc, Edit.get_bind,
      Edit.bind_of_ok hback]
    rfl

theorem mirrors_bracket (base : Option TypeName) (result : TypeName) (name : String)
    (hooks : Hooks) (b : Body) :
    Mirrors (bracket base result name hooks) (Edit.bracket base result name hooks) b := by
  refine (Mirrors.enter hooks b).bind fun _ b _ ↦ ?_
  refine (Mirrors.findBaseCall base b).bind fun baseCall b _ ↦ ?_
  refine (Mirrors.modify _).bind fun _ b _ ↦ ?_
  refine (mirrors_funnelReturns result b).bind fun funnel c hc ↦ ?_
  obtain ⟨hfunnel, hpos⟩ := size_of_funnelReturns hc
  refine (Mirrors.spanStart baseCall c).bind fun start d hd ↦ ?_
  obtain ⟨rfl, hstart⟩ := spanStart_lt hpos hd
  exact mirrors_close name hooks hstart hfunnel

theorem slice?_lookback {code : List Instr} {stop : Nat} (h : stop ≤ code.length) (back : Nat) :
    slice? code (stop - back) stop = some ((code.take stop).drop (stop - back)) :=
  if_pos ⟨Nat.sub_le _ _, h⟩

theorem completes?_eq {pattern : StepPattern} {funnel : Label} {i : Instr} {n : Nat}
    (h : n ≤ b.size) :
    b.completes? pattern funnel i n = some (b.completes pattern funnel i n) := by
  rw [Body.completes?, slice?_lookback h]
  rfl

theorem mapM_completes? {pattern : StepPattern} {funnel : Label} {xs : List (Instr × Nat)}
    (h : ∀ x ∈ xs, x.2 ≤ b.size) :
    (xs.mapM fun (i, n) ↦ do return (i.label, ← b.completes? pattern funnel i n)) =
      some (xs.map fun (i, n) ↦ (i.label, b.completes pattern funnel i n)) := by
  induction xs with
  | nil => rfl
  | cons x xs ih =>
    obtain ⟨hx, hxs⟩ := List.forall_mem_cons.1 h
    obtain ⟨i, n⟩ := x
    rw [List.mapM_cons, ih hxs]
    dsimp only
    rw [completes?_eq hx]
    rfl

theorem mirrors_exits (pattern : StepPattern) (b : Body) :
    Mirrors (exits pattern) (Edit.ofExcept (b.exits pattern)) b := by
  have hleaves : ∀ x ∈ b.leaves, x.2 ≤ b.size := by
    rintro ⟨i, n⟩ hx
    have hn := (List.mk_mem_zipIdx_iff_getElem?.1 (List.mem_filter.1 hx).1)
    exact Nat.le_of_lt (List.getElem?_eq_some_iff.1 hn).1
  refine .of_eq get_bind rfl ?_
  unfold Body.exits
  cases b.funnel? with
  | none => exact ⟨rfl, nofun⟩
  | some funnel =>
    dsimp only
    refine .of_eq (need_bind (mapM_completes? hleaves)) rfl ?_
    generalize b.leaves = leaves
    simp only [List.partition_eq_filter_filter, List.filter_map, List.map_map, List.isEmpty_map,
      Function.comp_def]
    split
    · exact ⟨rfl, nofun⟩
    · exact ⟨rfl, nofun⟩

theorem mirrors_stepEntry (pattern : StepPattern) (b : Body) :
    Mirrors (stepEntry pattern) (Edit.ofExcept (b.stepEntry pattern)) b := by
  refine .of_eq get_bind rfl ?_
  cases hp : b.code.findIdx? fun i ↦ i.op.loadsState pattern.stateMarker with
  | none =>
    have hnone : b.code[b.code.length]? = none := List.getElem?_eq_none (Nat.le_refl _)
    simp only [Body.stepEntry, List.findIdx?_eq_none_iff_findIdx_eq.1 hp, hnone]
    exact .pure 0
  | some position =>
    obtain ⟨hlt, hposition⟩ := List.findIdx?_eq_some_iff_findIdx_eq.1 hp
    have hload : b.code[position]? = some b.code[position] := List.getElem?_eq_getElem hlt
    simp only [Body.stepEntry, hposition, hload]
    refine .of_eq (need_bind rfl) rfl ?_
    cases position with
    | zero => exact ⟨rfl, nofun⟩
    | succ before =>
      have hbefore : b.code[before]? = some b.code[before] :=
        List.getElem?_eq_getElem (Nat.lt_of_succ_lt hlt)
      have hminus : minus? (before + 1) 1 = some before := minus?_of_le (Nat.succ_pos before)
      simp only [hminus, hbefore, Option.map_some, Option.some.injEq]
      refine .of_eq (need_bind rfl) rfl ?_
      split
      · exact .pure before
      · exact ⟨rfl, nofun⟩

theorem mirrors_correlate (id : Int32) (name : String) (hooks : Hooks) (pattern : StepPattern)
    (b : Body) :
    Mirrors (correlate id name hooks pattern) (Edit.correlate id name hooks pattern) b := by
  refine (Mirrors.enter hooks b).bind fun _ c hc ↦ ?_
  obtain ⟨rfl, hne, -⟩ := Edit.enter_eq_ok hc
  refine .of_eq modify_bind Edit.modify_bind ?_
  refine .of_eq rfl Edit.get_bind ?_
  refine (mirrors_exits pattern _).bind fun exits d hd ↦ ?_
  obtain ⟨rfl, -⟩ := Edit.ofExcept_eq_ok hd
  refine .of_eq rfl Edit.get_bind ?_
  refine (mirrors_stepEntry pattern _).bind fun entry e he ↦ ?_
  obtain ⟨rfl, hentry⟩ := Edit.ofExcept_eq_ok he
  have hlong : c.lengthen.code ≠ [] := by
    intro h
    exact hne (List.map_eq_nil_iff.1 h)
  have hlt := Body.stepEntry_lt hlong hentry
  obtain ⟨f, hf, -, hf'⟩ :=
    exists_insert (Nat.le_of_lt hlt) (correlatedCall id name hooks.asyncEnter)
  refine .of_eq (bind_of_ok hf') (Edit.bind_of_ok hf) ?_
  have hexit := forM_eq (m := fun l ↦ do
      let _ ← insertAhead l (correlatedCall id name hooks.asyncExit))
    (fun b l ↦ bind_of_ok (insertAhead_eq b l _)) exits.completions
  refine .of_eq (bind_of_ok (hexit f)) Edit.modify_bind ?_
  exact (Mirrors.finish _).bind fun _ _ _ ↦ .pure exits

end Strict

/-- With every position, every table and every subtraction checked, both ways of instrumentation
come to an answer or a refusal, whatever the body, and it is the one that they give unchecked. From
every body the passes over branch widths come to an end. -/
theorem instrument_in_range (b : Body) (name : String) (hooks : Hooks) :
    (∀ base result,
      (∃ c, b.bracket base result name hooks = (.ok (), c) ∧
        Strict.bracket base result name hooks b = .ok () c) ∨
      ∃ e c, (∀ place, e ≠ .outOfRange place) ∧
        b.bracket base result name hooks = (.error e, c) ∧
        Strict.bracket base result name hooks b = .error (.refused e) c) ∧
    (∀ id pattern,
      (∃ exits c, b.correlate id name hooks pattern = (.ok exits, c) ∧
        Strict.correlate id name hooks pattern b = .ok exits c) ∨
      ∃ e c, (∀ place, e ≠ .outOfRange place) ∧
        b.correlate id name hooks pattern = (.error e, c) ∧
        Strict.correlate id name hooks pattern b = .error (.refused e) c) ∧
    ∃ n, n ≤ longCount b.code + 1 ∧ Strict.Passes n b b.shorten := by
  refine ⟨fun base result ↦ ?_, fun id pattern ↦ ?_, Strict.exists_passes b⟩
  · obtain ⟨⟨⟩, c, hx, hy⟩ | ⟨e, c, he, hx, hy⟩ :=
      (Strict.mirrors_bracket base result name hooks b).answer
    · exact .inl ⟨c, by rw [Body.bracket, hx], hy⟩
    · exact .inr ⟨e, c, he, by rw [Body.bracket, hx], hy⟩
  · obtain ⟨exits, c, hx, hy⟩ | ⟨e, c, he, hx, hy⟩ :=
      (Strict.mirrors_correlate id name hooks pattern b).answer
    · exact .inl ⟨exits, c, by rw [Body.correlate, hx], hy⟩
    · exact .inr ⟨e, c, he, by rw [Body.correlate, hx], hy⟩

end CilSpan
