import CilSpan.Proofs.Machine.Confined
import CilSpan.Proofs.Span.CorrelateBehaviour

namespace CilSpan

/-- Whether control can only go on with the instruction behind, unless the machine breaks. -/
def Op.isQuiet : Op → Bool
  | .nop | .ldnull | .pop | .dup | .ceq | .arith _ | .ldarg _ | .ldloc _ | .stloc _ | .ldc _
  | .ldstr _ => true
  | _ => false

theorem Op.isLeave_of_isQuiet {op : Op} (h : op.isQuiet = true) : op.isLeave = false := by
  cases op with
  | branch => cases h
  | _ => rfl

/-- The code in front of the instruction at `entry` is quiet, and nothing leads back into it. -/
structure Body.Opens (b : Body) (entry : Nat) : Prop where
  quiet : ∀ i ∈ b.code.take entry, i.op.isQuiet = true
  target : ∀ l ∈ b.targets, ∀ n ∈ b.position? l, entry ≤ n
  handler : ∀ r ∈ b.regions, ∀ n ∈ b.position? r.handlerStart, entry ≤ n

def EntersFirst (entry : Nat) (completions : List Label) (beats : List Beat) : Prop :=
  ∃ front v back, beats = front ++ v :: back ∧ v.EntersAt entry ∧
    (∀ u ∈ front, ¬u.EntersAt entry ∧ u.moment.label ∉ completions) ∧ ∀ u ∈ back, ¬u.EntersAt entry

def Trace.EntersFirst (t : Trace) (id : Int32) (name : String) : Prop :=
  ∃ front back, t.events = front ++ .asyncEnter id name :: back ∧
    (∀ e ∈ front, e.isCorrelated = false) ∧ ∀ e ∈ back, e.hook? ≠ some .asyncEnter

section

variable {entry : Nat} {completions : List Label} {id : Int32} {name : String} {v : Beat} {e : Event}

theorem Beat.woven_of_entersAt (h : v.EntersAt entry) (completions : List Label) (id : Int32)
    (name : String) : v.woven entry completions id name = .asyncEnter id name ::
      ((if v.moment.label ∈ completions then [.asyncExit id name] else []) ++ v.events) := by
  rw [woven, if_pos h]
  rfl

theorem entersFirst_iff {beats : List Beat} (hb : ∀ beat ∈ beats, ∀ e ∈ beat.events, e.hook? = none)
    {t : Trace} (ht : t.events = beats.flatMap (Beat.woven entry completions id name)) :
    t.EntersFirst id name ↔ EntersFirst entry completions beats := by
  constructor
  · rintro ⟨front, back, hsplit, hfront, hback⟩
    rw [ht] at hsplit
    obtain ⟨before, v, after, l, r, rfl, hmarks, rfl⟩ :=
      exists_of_flatMap_woven hb (e := .asyncEnter id name) rfl hsplit
    obtain ⟨hv, rfl⟩ := Beat.enter_of_marks hmarks
    rw [List.append_nil] at hfront hsplit
    have hbefore : ∀ u ∈ before, ∀ e ∈ u.woven entry completions id name, e.isCorrelated = false :=
      fun u hu e he ↦ hfront e (List.mem_flatMap.2 ⟨u, hu, he⟩)
    refine ⟨before, v, after, rfl, hv, fun u hu ↦ ⟨fun hent ↦ ?_, fun hl ↦ ?_⟩, fun u hu hent ↦ ?_⟩
    · cases hbefore u hu (.asyncEnter id name) (Beat.mem_woven.2 (.inl ⟨hent, rfl⟩))
    · cases hbefore u hu (.asyncExit id name) (Beat.mem_woven.2 (.inr (.inl ⟨hl, rfl⟩)))
    · rw [List.flatMap_append, List.append_cancel_left_eq, List.flatMap_cons,
        Beat.woven_of_entersAt hv] at hsplit
      refine hback (.asyncEnter id name) ((List.cons.inj hsplit).2 ▸ List.mem_append_right _ ?_) rfl
      exact List.mem_flatMap.2 ⟨u, hu, Beat.mem_woven.2 (.inl ⟨hent, rfl⟩)⟩
  · rintro ⟨before, v, after, rfl, hv, hbefore, hafter⟩
    rw [List.flatMap_append, List.flatMap_cons, Beat.woven_of_entersAt hv] at ht
    refine ⟨_, _, ht, fun e he ↦ ?_, fun e he ↦ ?_⟩
    · obtain ⟨u, hu, he⟩ := List.mem_flatMap.1 he
      obtain ⟨hent, hl⟩ := hbefore u hu
      obtain ⟨h, -⟩ | ⟨h, -⟩ | he := Beat.mem_woven.1 he
      · exact absurd h hent
      · exact absurd h hl
      · exact not_isCorrelated_of_hook? (hb u (by simp [hu]) e he)
    · obtain he | he := List.mem_append.1 he
      · obtain he | he := List.mem_append.1 he
        · split at he
          · exact List.mem_singleton.1 he ▸ nofun
          · cases he
        · rw [hb v (by simp) e he]
          exact nofun
      · obtain ⟨u, hu, he⟩ := List.mem_flatMap.1 he
        obtain ⟨h, -⟩ | ⟨-, rfl⟩ | he := Beat.mem_woven.1 he
        · exact absurd h (hafter u hu)
        · exact nofun
        · rw [hb u (by simp [hu]) e he]
          exact nofun

end

namespace Program

variable {σ : Type} {p : Program σ} {entry n left : Nat} {i : Instr} {s t : State σ} {fell : Bool}

theorem exec_quiet (h : i.op.isQuiet = true) :
    (∃ t, p.exec i s = .next t) ∨ ∃ fault t, p.exec i s = .broken fault t := by
  obtain ⟨l, op⟩ := i
  obtain ⟨position, stack, slots, pending, heap, world, path, events⟩ := s
  cases op with
  | nop | ldnull | ldc | ldstr => exact .inl ⟨_, rfl⟩
  | ldarg | ldloc =>
    simp only [exec]
    split
    · exact .inl ⟨_, rfl⟩
    · exact .inr ⟨_, _, rfl⟩
  | stloc =>
    cases stack with
    | nil => exact .inr ⟨_, _, rfl⟩
    | cons v stack =>
      simp only [exec]
      split
      · exact .inl ⟨_, rfl⟩
      · exact .inr ⟨_, _, rfl⟩
  | pop | dup =>
    cases stack with
    | nil => exact .inr ⟨_, _, rfl⟩
    | cons v stack => exact .inl ⟨_, rfl⟩
  | ceq =>
    rcases stack with _ | ⟨b, _ | ⟨a, stack⟩⟩
    · exact .inr ⟨_, _, rfl⟩
    · exact .inr ⟨_, _, rfl⟩
    · exact .inl ⟨_, rfl⟩
  | arith =>
    simp only [exec, State.arith]
    split
    · exact .inr ⟨_, _, rfl⟩
    · exact .inl ⟨_, rfl⟩
    all_goals exact .inr ⟨_, _, rfl⟩
  | _ => cases h

/-- Once behind the entry, control comes there only by a jump. -/
theorem not_entersAt (h : p.Confines (entry ≤ ·)) (hs : s.Within (entry ≤ ·))
    (hf : fell = true → entry < s.position) : ∀ v ∈ p.beats left fell s, ¬v.EntersAt entry := by
  induction left generalizing fell s with
  | zero => exact nofun
  | succ left ih =>
    cases hi : p.body.code[s.position]? with
    | none =>
      rw [beats_none hi]
      exact nofun
    | some i =>
      obtain ⟨rest, hbeats, hrest⟩ := beats_succ hi left fell
      rw [hbeats]
      refine List.forall_mem_cons.2 ⟨fun ⟨hfell, hentry⟩ ↦ ?_, ?_⟩
      · have hlt := hf hfell
        dsimp only at hentry
        omega
      · obtain rfl | ⟨fell', t, hgo, ht, rfl⟩ := hrest
        · exact nofun
        · refine ih (h.within_of_goes hs hgo) fun hfell' ↦ ?_
          have hposition := hs.position
          have hnext := ht hfell'
          omega

theorem exists_entersAt (h : p.Confines (entry ≤ ·)) (hs : s.Within (entry ≤ ·))
    (hn : s.position = entry) (hi : p.body.code[s.position]? = some i) :
    ∃ v back, p.beats (n + 1) true s = v :: back ∧ v.EntersAt entry ∧
      ∀ u ∈ back, ¬u.EntersAt entry := by
  obtain ⟨rest, hbeats, hrest⟩ := beats_succ hi n true
  refine ⟨_, rest, hbeats, ⟨rfl, hn⟩, ?_⟩
  obtain rfl | ⟨fell', t, hgo, ht, rfl⟩ := hrest
  · exact nofun
  · refine not_entersAt h (h.within_of_goes hs hgo) fun hfell ↦ ?_
    have hnext := ht hfell
    omega

/-- Control that has come to the quiet code in front of the entry falls to the entry. -/
theorem exists_opening (h : p.Confines (entry ≤ ·))
    (hq : ∀ n i, n < entry → p.body.code[n]? = some i → i.op.isQuiet = true) {outcome : Outcome}
    (he : p.Ends n s (.ok outcome) t) (hn : s.position ≤ entry) (hpending : s.pending = []) :
    ∃ front v back, p.beats n true s = front ++ v :: back ∧ v.EntersAt entry ∧
      (∀ u ∈ front, u.moment.position < entry) ∧ ∀ u ∈ back, ¬u.EntersAt entry := by
  generalize hr : Except.ok outcome = r at he
  induction he with
  | @ended s t outcome hs =>
    obtain ⟨i, hi⟩ := exists_of_step_ended hs
    rcases Nat.lt_or_eq_of_le hn with hlt | heq
    · rw [step_eq_exec hi] at hs
      obtain ⟨u, hu⟩ | ⟨fault, u, hu⟩ := exec_quiet (p := p) (hq _ i hlt hi)
      · rw [hu] at hs
        cases hs
      · rw [hu] at hs
        cases hs
    · obtain ⟨v, back, hbeats, hv, hback⟩ :=
        exists_entersAt (n := 0) h ⟨heq.ge, by simp [hpending]⟩ heq hi
      exact ⟨[], v, back, hbeats, hv, nofun, hback⟩
  | broken => cases hr
  | @cons n s t u r hgo he ih =>
    obtain ⟨i, hi⟩ := exists_of_step_goes hgo
    rcases Nat.lt_or_eq_of_le hn with hlt | heq
    · have hnext : p.step s = .next t := by
        rw [step_eq_exec hi] at hgo ⊢
        obtain ⟨u, hu⟩ | ⟨fault, u, hu⟩ := exec_quiet (p := p) (hq _ i hlt hi)
        · rw [hu] at hgo ⊢
          rw [Turn.goes_next.1 hgo]
        · rw [hu] at hgo
          exact absurd hgo Turn.not_goes_broken
      obtain ⟨hposition, hframe⟩ := frame_of_next hi hnext
      obtain ⟨front, v, back, hbeats, hv, hfront, hback⟩ := ih (by omega) (hframe.trans hpending) hr
      let first : Beat := ⟨true, ⟨s.position, i.label, s.stack⟩, s.news t⟩
      refine ⟨first :: front, v, back, ?_, hv, List.forall_mem_cons.2 ⟨hlt, hfront⟩, hback⟩
      rw [beats_next hi n true hnext, hbeats]
      rfl
    · obtain ⟨v, back, hbeats, hv, hback⟩ :=
        exists_entersAt (n := n) h ⟨heq.ge, by simp [hpending]⟩ heq hi
      exact ⟨[], v, back, hbeats, hv, nofun, hback⟩

end Program

section

variable {σ : Type} {b b' : Body} {id : Int32} {name : String} {tracer : TypeName}
  {pattern : StepPattern} {exits : Exits} {entry : Nat} {host : Host σ} {call : Invocation}
  {heap : Heap} {world : σ} {e : Execution}

theorem Body.Opens.confines {p : Program σ} (h : p.body.Opens entry) (hp : p.Loaded) :
    p.Confines (entry ≤ ·) where
  next _ hn := Nat.le_succ_of_le hn
  target n i l m _ hi hl hm := by
    have hmem : l ∈ p.body.targets := List.mem_filterMap.2 ⟨i, List.mem_of_getElem? hi, hl⟩
    exact h.target l hmem m hm
  handler z hz := by
    obtain ⟨r, hr, hof⟩ := exists_of_mem_forall₂ hp.zones hz
    exact h.handler r hr _ hof.handlerStart

theorem Body.Opens.quiet_of_getElem? (h : b.Opens entry) {n : Nat} {i : Instr} (hn : n < entry)
    (hi : b.code[n]? = some i) : i.op.isQuiet = true := by
  refine h.quiet i (List.mem_of_getElem? (i := n) ?_)
  rw [List.getElem?_take, if_pos hn, hi]

theorem Body.Opens.entersFirst (h : b.Opens entry) (hb : b.Sound) (hexits : b.exits pattern = .ok exits)
    {hooks : Hooks} (he : (b.invoke hooks host call heap world).answer = .ok e) :
    EntersFirst entry exits.completions (b.beats hooks host call heap world) := by
  obtain ⟨zs, hzs⟩ := hb.exists_zones
  obtain ⟨n, t, hn, hends, -⟩ := Body.exists_ends_of_invoke_ok hb hzs he
  obtain ⟨front, v, back, hbeats, hv, hfront, hback⟩ := Program.exists_opening
    (Body.Opens.confines (p := ⟨b, zs, hooks, call.args, host⟩) h ⟨hb, hzs⟩)
    (fun n i hn hi ↦ h.quiet_of_getElem? hn hi) hends (Nat.zero_le _) rfl
  rw [← hends.beats_eq true hn, ← Body.beats_eq hzs] at hbeats
  refine ⟨front, v, back, hbeats, hv, fun u hu ↦ ?_, hback⟩
  have hlt := hfront u hu
  refine ⟨fun hent ↦ Nat.ne_of_lt hlt hent.2, fun hl ↦ ?_⟩
  have hmem : u ∈ b.beats hooks host call heap world := by simp [hbeats, hu]
  obtain ⟨i, hi, hlabel⟩ := Body.exists_instr_of_mem_beats hb hmem
  rw [← hlabel, Body.mem_completions_iff hb.nodup hexits hi] at hl
  have hleave := Op.isLeave_of_isQuiet (h.quiet_of_getElem? hlt hi)
  rw [hl.1] at hleave
  cases hleave

/-- An execution enters the span as often as control comes to the entry without a jump. It enters it
once, and before all exits, exactly if control does so once, and before all completing exits; this is
so whenever the code in front of the entry is quiet and nothing leads back into it. -/
theorem correlate_enters_first_iff (hb : b.flaw? = none)
    (h : b.correlate id name (.on tracer) pattern = (.ok exits, b'))
    (he : (b'.invoke (.on tracer) host call heap world).answer = .ok e) :
    ∃ entry, b.stepEntry pattern = .ok entry ∧
      e.trace.count .asyncEnter =
        (b.beats (.on tracer) host call heap world).countP (fun v ↦ v.EntersAt entry) ∧
      (e.trace.EntersFirst id name ↔
        EntersFirst entry exits.completions (b.beats (.on tracer) host call heap world)) ∧
      (b.Opens entry → e.trace.EntersFirst id name) := by
  have hsound : b.Sound := Body.flaw?_eq_none.1 hb
  obtain ⟨-, -, -, -, -, hfree, -⟩ := correlate_eq_ok hsound.nodup h
  obtain ⟨entry, old, hentry, hold, hweaves⟩ := correlate_reflects hb h he
  have hiff := entersFirst_iff (hook?_of_mem_beats hsound hfree host call heap world) hweaves.events
  refine ⟨entry, hentry, hweaves.entries, hiff, fun hopens ↦ hiff.2 ?_⟩
  exact hopens.entersFirst hsound (exits_of_correlate h) hold

end

def prepared : Body where
  code := [⟨⟨0⟩, .ldc 1⟩, ⟨⟨1⟩, .pop⟩, ⟨⟨2⟩, .ldarg 0⟩,
    ⟨⟨3⟩, .ldfld ⟨⟨"App", "Step"⟩, "<>1__state", .int32⟩⟩, ⟨⟨4⟩, .pop⟩,
    ⟨⟨5⟩, .branch .leave .short ⟨6⟩⟩, ⟨⟨6⟩, .call (.static ⟨"App", "Builder"⟩ "SetResult" [] .void)⟩,
    ⟨⟨7⟩, .ret⟩]
  locals := []
  regions := []
  initLocals := false
  next := 8

theorem correlate_enters_first_prepared :
    ∃ b' e, prepared.correlate 0 "Run" (.on ⟨"App", "Tracer"⟩) .standard =
        (.ok ⟨⟨6⟩, [⟨5⟩], []⟩, b') ∧
      (b'.invoke (.on ⟨"App", "Tracer"⟩) .idle ⟨[.object 0], 40⟩ .empty ()).answer = .ok e ∧
      e.trace.EntersFirst 0 "Run" := by
  have hok : (prepared.correlate 0 "Run" (.on ⟨"App", "Tracer"⟩) .standard).1 =
      .ok ⟨⟨6⟩, [⟨5⟩], []⟩ := by decide +kernel
  have hrun : ((prepared.correlate 0 "Run" (.on ⟨"App", "Tracer"⟩) .standard).2.invoke
      (.on ⟨"App", "Tracer"⟩) .idle ⟨[.object 0], 40⟩ .empty ()).answer.toOption.map (·.outcome) =
        some (.returned none) := by decide +kernel
  obtain ⟨b', hb⟩ : ∃ b', prepared.correlate 0 "Run" (.on ⟨"App", "Tracer"⟩) .standard =
      (.ok ⟨⟨6⟩, [⟨5⟩], []⟩, b') := ⟨_, Prod.ext hok rfl⟩
  rw [hb] at hrun
  obtain ⟨e, he, -⟩ := Body.exists_ok_of_map hrun
  obtain ⟨entry, hentry, -, -, hfirst⟩ := correlate_enters_first_iff (by decide) hb he
  obtain rfl : 2 = entry := Except.ok.inj
    ((by decide +kernel : prepared.stepEntry .standard = .ok 2).symm.trans hentry)
  exact ⟨b', e, hb, he, hfirst ⟨by decide, by decide, by decide⟩⟩

def overEntry : Body where
  code := [⟨⟨0⟩, .ldarg 1⟩, ⟨⟨1⟩, .branch .ifTrue .short ⟨5⟩⟩, ⟨⟨2⟩, .ldarg 0⟩,
    ⟨⟨3⟩, .ldfld ⟨⟨"App", "Step"⟩, "<>1__state", .int32⟩⟩, ⟨⟨4⟩, .pop⟩,
    ⟨⟨5⟩, .branch .leave .short ⟨6⟩⟩, ⟨⟨6⟩, .call (.static ⟨"App", "Builder"⟩ "SetResult" [] .void)⟩,
    ⟨⟨7⟩, .ret⟩]
  locals := []
  regions := []
  initLocals := false
  next := 8

theorem correlate_never_enters :
    ∃ b' e, overEntry.flaw? = none ∧
      overEntry.correlate 0 "Run" (.on ⟨"App", "Tracer"⟩) .standard =
        (.ok ⟨⟨6⟩, [⟨5⟩], []⟩, b') ∧
      (b'.invoke (.on ⟨"App", "Tracer"⟩) .idle ⟨[.null, .int 1], 40⟩ .empty ()).answer = .ok e ∧
      e.trace.events = [.asyncExit 0 "Run", .call "App.Builder::SetResult"] := by
  have hok : (overEntry.correlate 0 "Run" (.on ⟨"App", "Tracer"⟩) .standard).1 =
      .ok ⟨⟨6⟩, [⟨5⟩], []⟩ := by decide +kernel
  have hrun : ((overEntry.correlate 0 "Run" (.on ⟨"App", "Tracer"⟩) .standard).2.invoke
      (.on ⟨"App", "Tracer"⟩) .idle ⟨[.null, .int 1], 40⟩ .empty ()).answer.toOption.map
        (·.trace.events) = some [.asyncExit 0 "Run", .call "App.Builder::SetResult"] := by
    decide +kernel
  obtain ⟨b', hb⟩ : ∃ b', overEntry.correlate 0 "Run" (.on ⟨"App", "Tracer"⟩) .standard =
      (.ok ⟨⟨6⟩, [⟨5⟩], []⟩, b') := ⟨_, Prod.ext hok rfl⟩
  rw [hb] at hrun
  obtain ⟨e, he, hevents⟩ := Body.exists_ok_of_map hrun
  exact ⟨b', e, by decide, hb, he, hevents⟩

end CilSpan
