import CilSpan.Proofs.Span.CorrelateBehaviour

namespace CilSpan

def Landed (m n : Nat) (way : List Beat) : Prop :=
  ∃ front u run, way = front ++ u :: run ∧ u.fell = false ∧ (∀ v ∈ run, v.fell = true) ∧
    m < u.moment.position ∧ u.moment.position + run.length = n

namespace Landed

variable {m n : Nat} {way : List Beat} {v : Beat}

theorem jumped (hf : v.fell = false) (hm : m < v.moment.position) :
    Landed m v.moment.position (way ++ [v]) :=
  ⟨way, v, [], rfl, hf, nofun, hm, rfl⟩

theorem fell (h : Landed m n way) (hf : v.fell = true) (hn : v.moment.position = n + 1) :
    Landed m v.moment.position (way ++ [v]) := by
  obtain ⟨front, u, run, rfl, hu, hrun, hm, hlen⟩ := h
  refine ⟨front, u, run ++ [v], by simp, hu, ?_, hm, ?_⟩
  · intro w hw
    obtain hw | hw := List.mem_append.1 hw
    · exact hrun w hw
    · exact List.mem_singleton.1 hw ▸ hf
  · rw [List.length_append, List.length_singleton]
    omega

end Landed

/-- A way from the start of the code to `v` comes through every position in front of `v`, or has
landed behind it. -/
theorem exists_mem_or_landed {way : List Beat} {v : Beat} {m : Nat}
    (hchain : (way ++ [v]).IsChain Beat.Leads)
    (hstart : ∀ u ∈ (way ++ [v]).head?, u.fell = true → u.moment.position = 0)
    (hm : m < v.moment.position) :
    (∃ u ∈ way, u.moment.position = m) ∨ Landed m v.moment.position (way ++ [v]) := by
  induction way using List.reverseRecOn generalizing v with
  | nil =>
    cases hf : v.fell with
    | false => exact .inr (Landed.jumped hf hm)
    | true =>
      have hzero := hstart v rfl hf
      omega
  | append_singleton way u ih =>
    cases hf : v.fell with
    | false => exact .inr (Landed.jumped hf hm)
    | true =>
      rw [List.append_assoc, List.singleton_append, List.isChain_append_cons_cons] at hchain
      obtain ⟨hchain, hlead, -⟩ := hchain
      have hv : v.moment.position = u.moment.position + 1 := hlead hf
      by_cases hmu : m = u.moment.position
      · exact .inl ⟨u, by simp, hmu.symm⟩
      · have hstart' : ∀ w ∈ (way ++ [u]).head?, w.fell = true → w.moment.position = 0 := by
          intro w hw
          refine hstart w ?_
          rw [List.head?_append_of_ne_nil _ (by simp)]
          exact hw
        obtain ⟨w, hw, hp⟩ | hland := ih hchain hstart' (by omega)
        · exact .inl ⟨w, by simp [hw], hp⟩
        · exact .inr (hland.fell hf hv)

namespace Body

def reports (b : Body) (pattern : StepPattern) (n : Nat) : Bool :=
  b.code[n]?.any fun i ↦ i.op.callsNamed pattern.faultReport

/-- Whether the `leave` that a run comes to with `v`, after `before`, ends the operation. -/
inductive Cause (b : Body) (pattern : StepPattern) (funnel : Label) (before : List Beat) (v : Beat) :
    Prop
  | published {i : Instr} (hi : b.code[v.moment.position]? = some i)
      (ht : i.op.target? = some funnel)
  | reported {u : Beat} (hu : u ∈ before) (hr : b.reports pattern u.moment.position = true)
  /-- The run has jumped in behind a fault report, and the `leave` stands shortly behind that. -/
  | passed {m : Nat} (hr : b.reports pattern m = true)
      (hn : v.moment.position ≤ m + pattern.lookback.toNat)
      (hland : Landed m v.moment.position (before ++ [v]))

def LeavesAt (b : Body) (v : Beat) : Prop :=
  ∃ i, b.code[v.moment.position]? = some i ∧ i.op.isLeave = true

/-- A run that reports no fault, takes no `leave` to the funnel, and does not jump in between a fault
report and a `leave` shortly behind it. -/
structure Parks (b : Body) (pattern : StepPattern) (funnel : Label) (beats : List Beat) : Prop where
  silent : ∀ v ∈ beats, b.reports pattern v.moment.position = false
  aside : ∀ v ∈ beats, b.LeavesAt v → ∀ i, b.code[v.moment.position]? = some i →
    i.op.target? ≠ some funnel
  apart : ∀ before v after, beats = before ++ v :: after → b.LeavesAt v →
    ∀ m, b.reports pattern m = true → v.moment.position ≤ m + pattern.lookback.toNat →
      ¬Landed m v.moment.position (before ++ [v])

theorem Parks.not_cause {b : Body} {pattern : StepPattern} {funnel : Label}
    {beats before after : List Beat} {v : Beat} (h : b.Parks pattern funnel beats)
    (hbeats : beats = before ++ v :: after) (hv : b.LeavesAt v) :
    ¬b.Cause pattern funnel before v := by
  intro hcause
  cases hcause with
  | published hi ht => exact h.aside v (by simp [hbeats]) hv _ hi ht
  | reported hu hr =>
    rw [h.silent _ (by simp [hbeats, hu])] at hr
    cases hr
  | passed hr hn hland => exact h.apart before v after hbeats hv _ hr hn hland

variable {b : Body} {pattern : StepPattern} {n : Nat}

theorem exists_of_faultNear (h : b.faultNear pattern n = true) :
    ∃ m, b.reports pattern m = true ∧ m < n ∧ n ≤ m + pattern.lookback.toNat := by
  obtain ⟨i, hi, hc⟩ := List.any_eq_true.1 h
  obtain ⟨k, hk⟩ := List.getElem?_of_mem hi
  rw [List.getElem?_drop, List.getElem?_take] at hk
  split at hk
  · rename_i hlt
    exact ⟨_, by simp [reports, hk, hc], hlt, by omega⟩
  · cases hk

end Body

section

variable {σ : Type} {b b' : Body} {id : Int32} {name : String} {tracer : TypeName}
  {pattern : StepPattern} {exits : Exits}

theorem cause_of_mem_completions (hb : b.Sound) (h : b.exits pattern = .ok exits) {host : Host σ}
    {hooks : Hooks} {call : Invocation} {heap : Heap} {world : σ} {before after : List Beat} {v : Beat}
    (hbeats : b.beats hooks host call heap world = before ++ v :: after)
    (hv : v.moment.label ∈ exits.completions) :
    b.LeavesAt v ∧ b.Cause pattern exits.funnel before v := by
  have hmem : v ∈ b.beats hooks host call heap world := by simp [hbeats]
  obtain ⟨i, hi, hl⟩ := Body.exists_instr_of_mem_beats hb hmem
  rw [← hl, Body.mem_completions_iff hb.nodup h hi] at hv
  obtain ⟨hleave, hc⟩ := hv
  refine ⟨⟨i, hi, hleave⟩, ?_⟩
  obtain ht | hnear := (Bool.or_eq_true _ _).mp hc
  · exact .published hi (of_decide_eq_true ht)
  · obtain ⟨m, hr, hm, hn⟩ := Body.exists_of_faultNear hnear
    have hway : before ++ v :: after = (before ++ [v]) ++ after := List.append_cons ..
    have hchain : ((before ++ [v]) ++ after).IsChain Beat.Leads :=
      hway ▸ hbeats ▸ Body.isChain_beats hb
    have hstart : ∀ u ∈ (before ++ [v]).head?, u.fell = true → u.moment.position = 0 := by
      intro u hu _
      have hhead : u ∈ (b.beats hooks host call heap world).head? := by
        rw [hbeats, hway, List.head?_append_of_ne_nil _ (by simp)]
        exact hu
      exact (Body.head_beats hb hhead).2
    obtain ⟨u, hu, rfl⟩ | hland := exists_mem_or_landed hchain.left_of_append hstart hm
    · exact .reported hu hr
    · exact .passed hr hn hland

/-- The span is exited only ahead of an exit that goes to the funnel, or after a fault report, or by a
run that has jumped in between a report and an exit shortly behind it. A run that does none of these
does not exit it. -/
theorem correlate_exit_cause (hb : b.flaw? = none)
    (h : b.correlate id name (.on tracer) pattern = (.ok exits, b')) (host : Host σ)
    (call : Invocation) (heap : Heap) (world : σ) :
    (∃ entry, b.stepEntry pattern = .ok entry ∧ ∀ front id' name' back,
      b'.record (.on tracer) host call heap world = front ++ .asyncExit id' name' :: back →
        ∃ before v after, b.beats (.on tracer) host call heap world = before ++ v :: after ∧
          front = before.flatMap (Beat.woven entry exits.completions id name) ++
            (if v.fell ∧ v.moment.position = entry then [.asyncEnter id name] else []) ∧
          b.LeavesAt v ∧ b.Cause pattern exits.funnel before v) ∧
      (b.Parks pattern exits.funnel (b.beats (.on tracer) host call heap world) →
        ∀ e ∈ b'.record (.on tracer) host call heap world, e.hook? ≠ some .asyncExit) ∧
      ∀ e, (b'.invoke (.on tracer) host call heap world).answer = .ok e →
        e.trace.events = b'.record (.on tracer) host call heap world := by
  have hsound : b.Sound := Body.flaw?_eq_none.1 hb
  have hexits := exits_of_correlate h
  obtain ⟨-, -, -, -, -, hfree, -⟩ := correlate_eq_ok hsound.nodup h
  obtain ⟨entry, hentry, rest, hrecord⟩ := correlate_record hb h host call heap world
  have hplain := hook?_of_mem_beats hsound hfree host call heap world
  have hcause : ∀ front id' name' back,
      b'.record (.on tracer) host call heap world = front ++ .asyncExit id' name' :: back →
        ∃ before v after, b.beats (.on tracer) host call heap world = before ++ v :: after ∧
          front = before.flatMap (Beat.woven entry exits.completions id name) ++
            (if v.fell ∧ v.moment.position = entry then [.asyncEnter id name] else []) ∧
          b.LeavesAt v ∧ b.Cause pattern exits.funnel before v := by
    intro front id' name' back hfront
    rw [hfront, List.append_assoc, List.cons_append] at hrecord
    obtain ⟨before, v, after, l, r, hbeats, hmarks, rfl⟩ :=
      exists_of_flatMap_woven hplain rfl hrecord.symm
    obtain ⟨hv, rfl⟩ := Beat.exit_of_marks hmarks
    exact ⟨before, v, after, hbeats, rfl, cause_of_mem_completions hsound hexits hbeats hv⟩
  refine ⟨⟨entry, hentry, hcause⟩, fun hparks e he hk ↦ ?_, fun e he ↦
    (Body.trace_eq_beats (Body.sound_of_invoke_ok he) he).2⟩
  obtain ⟨front, back, hsplit⟩ := List.append_of_mem he
  cases e with
  | asyncExit id' name' =>
    obtain ⟨before, v, after, hbeats, -, hleave, hwhy⟩ := hcause front id' name' back hsplit
    exact hparks.not_cause hbeats hleave hwhy
  | _ => cases hk

end

def overReport : Body where
  code := [⟨⟨0⟩, .ldarg 1⟩, ⟨⟨1⟩, .branch .ifTrue .short ⟨3⟩⟩,
    ⟨⟨2⟩, .call (.static ⟨"App", "Builder"⟩ "SetException" [] .void)⟩,
    ⟨⟨3⟩, .branch .leave .short ⟨6⟩⟩, ⟨⟨4⟩, .branch .leave .short ⟨5⟩⟩,
    ⟨⟨5⟩, .call (.static ⟨"App", "Builder"⟩ "SetResult" [] .void)⟩, ⟨⟨6⟩, .ret⟩]
  locals := []
  regions := []
  initLocals := false
  next := 7

theorem correlate_overReport : (overReport.correlate 0 "Run" (.on ⟨"App", "Tracer"⟩) .standard).1 =
    .ok ⟨⟨5⟩, [⟨3⟩, ⟨4⟩], []⟩ := by decide +kernel

theorem correlate_exit_cause_overReport :
    ∃ before v after, overReport.beats (.on ⟨"App", "Tracer"⟩) .idle ⟨[.null, .int 1], 40⟩ .empty () =
        before ++ v :: after ∧
      overReport.LeavesAt v ∧ overReport.Cause .standard ⟨5⟩ before v := by
  obtain ⟨b', hb⟩ : ∃ b', overReport.correlate 0 "Run" (.on ⟨"App", "Tracer"⟩) .standard =
      (.ok ⟨⟨5⟩, [⟨3⟩, ⟨4⟩], []⟩, b') := ⟨_, Prod.ext correlate_overReport rfl⟩
  have hrecord : (overReport.correlate 0 "Run" (.on ⟨"App", "Tracer"⟩) .standard).2.record
      (.on ⟨"App", "Tracer"⟩) .idle ⟨[.null, .int 1], 40⟩ .empty () =
        [.asyncEnter 0 "Run", .asyncExit 0 "Run"] := by decide +kernel
  rw [hb] at hrecord
  obtain ⟨⟨entry, -, hcause⟩, -⟩ := correlate_exit_cause (by decide) hb .idle ⟨[.null, .int 1], 40⟩
    .empty ()
  obtain ⟨before, v, after, hbeats, -, hwhy⟩ := hcause [.asyncEnter 0 "Run"] 0 "Run" [] hrecord
  exact ⟨before, v, after, hbeats, hwhy⟩

theorem correlate_exit_unreported :
    ∃ b' e, overReport.flaw? = none ∧
      overReport.correlate 0 "Run" (.on ⟨"App", "Tracer"⟩) .standard =
        (.ok ⟨⟨5⟩, [⟨3⟩, ⟨4⟩], []⟩, b') ∧
      (b'.invoke (.on ⟨"App", "Tracer"⟩) .idle ⟨[.null, .int 1], 40⟩ .empty ()).answer = .ok e ∧
      (e.trace.visits.map Visit.label).filter (· ∈ overReport.labels) = [⟨0⟩, ⟨1⟩, ⟨3⟩, ⟨6⟩] ∧
      e.trace.events = [.asyncEnter 0 "Run", .asyncExit 0 "Run"] := by
  have hrun : ((overReport.correlate 0 "Run" (.on ⟨"App", "Tracer"⟩) .standard).2.invoke
      (.on ⟨"App", "Tracer"⟩) .idle ⟨[.null, .int 1], 40⟩ .empty ()).answer.toOption.map (fun e ↦
        ((e.trace.visits.map Visit.label).filter (· ∈ overReport.labels), e.trace.events)) =
      some ([⟨0⟩, ⟨1⟩, ⟨3⟩, ⟨6⟩], [.asyncEnter 0 "Run", .asyncExit 0 "Run"]) := by decide +kernel
  obtain ⟨b', hb⟩ : ∃ b', overReport.correlate 0 "Run" (.on ⟨"App", "Tracer"⟩) .standard =
      (.ok ⟨⟨5⟩, [⟨3⟩, ⟨4⟩], []⟩, b') := ⟨_, Prod.ext correlate_overReport rfl⟩
  rw [hb] at hrun
  obtain ⟨e, he, hpair⟩ := Body.exists_ok_of_map hrun
  obtain ⟨hpath, hevents⟩ := Prod.mk.inj hpair
  exact ⟨b', e, by decide, hb, he, hpath, hevents⟩

end CilSpan
