import CilSpan.Proofs.Span.Correlated

namespace CilSpan

def Event.isCorrelated : Event → Bool
  | .asyncEnter _ _ | .asyncExit _ _ => true
  | _ => false

variable {σ : Type}

structure Invoked (σ : Type) where
  result : Result σ (Except Failure Execution)
  beats : List Beat

def Body.session (b : Body) (hooks : Hooks) (host : Host σ) :
    List Invocation → Heap → σ → List (Invoked σ)
  | [], _, _ => []
  | call :: calls, heap, world =>
    let result := b.invoke hooks host call heap world
    ⟨result, b.beats hooks host call heap world⟩ ::
      b.session hooks host calls result.heap result.world

/-- The execution `e'` is `e`, whose beats are given, with the ends of the span woven in. -/
structure Execution.Weaves (old : List Label) (entry : Nat) (completions : List Label) (id : Int32)
    (name : String) (beats : List Beat) (e e' : Execution) : Prop where
  outcome : e'.outcome = e.outcome
  visits : e.trace.visits = beats.map (·.moment.visit)
  path : (e'.trace.visits.map Visit.label).filter (· ∈ old) = e.trace.visits.map Visit.label
  events : e'.trace.events = beats.flatMap (Beat.woven entry completions id name)
  erased : e'.trace.events.filter (fun v ↦ !v.isCorrelated) = e.trace.events
  exits : e'.trace.count .asyncExit = e.trace.visits.countP (·.label ∈ completions)
  entries : e'.trace.count .asyncEnter = beats.countP fun v ↦ v.fell ∧ v.moment.position = entry

structure Invoked.Correlated (old : List Label) (entry : Nat) (completions : List Label) (id : Int32)
    (name : String) (v v' : Invoked σ) : Prop where
  heap : v'.result.heap = v.result.heap
  world : v'.result.world = v.result.world
  failure : ∀ failure, v.result.answer = .error failure → v'.result.answer = .error failure
  execution : ∀ e, v.result.answer = .ok e → ∃ e', v'.result.answer = .ok e' ∧
    e.Weaves old entry completions id name v.beats e'

theorem append_eq_append_cons {α : Type} {xs ys front back : List α} {a : α}
    (h : xs ++ ys = front ++ a :: back) :
    (∃ rest, xs = front ++ a :: rest) ∨ ∃ l, front = xs ++ l ∧ ys = l ++ a :: back := by
  obtain ⟨l, hl, hys⟩ | ⟨rest, hxs, hys⟩ := List.append_eq_append_iff.1 h
  · exact .inr ⟨l, hl, hys⟩
  · cases rest with
    | nil => exact .inr ⟨[], by simpa using hxs.symm, by simpa using hys.symm⟩
    | cons c rest =>
      injection hys with hc hrest
      exact .inl ⟨rest, by rw [hxs, hc]⟩

abbrev Beat.EntersAt (entry : Nat) (v : Beat) : Prop := v.fell = true ∧ v.moment.position = entry

theorem not_isCorrelated_of_hook? {e : Event} (h : e.hook? = none) : e.isCorrelated = false := by
  cases e with
  | asyncEnter | asyncExit => cases h
  | _ => rfl

section

variable {entry : Nat} {completions : List Label} {id id' : Int32} {name name' : String} {v : Beat}
  {l r : List Event}

theorem Beat.mem_woven {e : Event} : e ∈ v.woven entry completions id name ↔
    v.EntersAt entry ∧ e = .asyncEnter id name ∨
      v.moment.label ∈ completions ∧ e = .asyncExit id name ∨ e ∈ v.events := by
  have hmark (c : Prop) [Decidable c] (a : Event) : e ∈ (if c then [a] else []) ↔ c ∧ e = a := by
    split <;> simp [*]
  rw [woven, List.mem_append, List.mem_append, hmark, hmark, or_assoc]

theorem Beat.exit_of_marks
    (h : v.marks entry completions id name = l ++ .asyncExit id' name' :: r) :
    v.moment.label ∈ completions ∧
      l = if v.fell ∧ v.moment.position = entry then [.asyncEnter id name] else [] := by
  unfold marks at h
  by_cases hc : v.moment.label ∈ completions
  · refine ⟨hc, ?_⟩
    rw [if_pos hc] at h
    by_cases hf : v.fell = true ∧ v.moment.position = entry
    · rw [if_pos hf] at h ⊢
      rcases l with _ | ⟨a, _ | ⟨b, l⟩⟩
      · simp at h
      · rw [(List.cons.inj h).1]
      · simp at h
    · rw [if_neg hf] at h ⊢
      rcases l with _ | ⟨a, l⟩
      · rfl
      · simp at h
  · rw [if_neg hc] at h
    split at h <;> rcases l with _ | ⟨a, l⟩ <;> simp at h

theorem Beat.enter_of_marks
    (h : v.marks entry completions id name = l ++ .asyncEnter id' name' :: r) :
    (v.fell = true ∧ v.moment.position = entry) ∧ l = [] := by
  unfold marks at h
  by_cases hf : v.fell = true ∧ v.moment.position = entry
  · refine ⟨hf, ?_⟩
    rw [if_pos hf] at h
    rcases l with _ | ⟨a, _ | ⟨b, l⟩⟩
    · rfl
    all_goals split at h <;> simp at h
  · rw [if_neg hf] at h
    split at h <;> rcases l with _ | ⟨a, l⟩ <;> simp at h

end

section

variable {entry : Nat} {completions : List Label} {id : Int32} {name : String} {beats : List Beat}
  (hb : ∀ beat ∈ beats, ∀ e ∈ beat.events, e.hook? = none)
include hb

theorem filter_woven : (beats.flatMap (Beat.woven entry completions id name)).filter
    (fun v ↦ !v.isCorrelated) = beats.flatMap Beat.events := by
  induction beats with
  | nil => rfl
  | cons beat beats ih =>
    obtain ⟨hbeat, hb⟩ := List.forall_mem_cons.1 hb
    have hself : beat.events.filter (fun v ↦ !v.isCorrelated) = beat.events := by
      apply List.filter_eq_self.2
      intro e he
      rw [not_isCorrelated_of_hook? (hbeat e he)]
      rfl
    have hmarks (c : Prop) [Decidable c] (e : Event) (he : e.isCorrelated = true) :
        (if c then [e] else []).filter (fun v ↦ !v.isCorrelated) = [] := by
      split <;> simp [he]
    rw [List.flatMap_cons, List.filter_append, ih hb, Beat.woven, List.filter_append,
      List.filter_append, hmarks _ _ rfl, hmarks _ _ rfl, hself]
    rfl

theorem countP_woven (hook : Hook) :
    (beats.flatMap (Beat.woven entry completions id name)).countP (fun v ↦ v.hook? = some hook) =
      beats.countP (fun v ↦ hook = .asyncEnter ∧ v.fell ∧ v.moment.position = entry) +
        beats.countP fun v ↦ hook = .asyncExit ∧ v.moment.label ∈ completions := by
  induction beats with
  | nil => rfl
  | cons beat beats ih =>
    obtain ⟨hbeat, hb⟩ := List.forall_mem_cons.1 hb
    have hnone : beat.events.countP (fun v ↦ v.hook? = some hook) = 0 := by
      apply List.countP_eq_zero.2
      intro e he
      simp [hbeat e he]
    have hmarks (c : Prop) [Decidable c] (e : Event) (k : Hook) (he : e.hook? = some k) :
        (if c then [e] else []).countP (fun v ↦ v.hook? = some hook) =
          if hook = k ∧ c then 1 else 0 := by
      by_cases hc : c <;> by_cases hk : hook = k <;> simp [hc, hk, he, eq_comm]
    rw [List.flatMap_cons, List.countP_append, ih hb, Beat.woven, List.countP_append,
      List.countP_append, hmarks _ _ .asyncEnter rfl, hmarks _ _ .asyncExit rfl, hnone,
      List.countP_cons, List.countP_cons]
    simp only [decide_eq_true_eq]
    omega

/-- An end of the span in the record stands in front of what some beat has recorded itself. -/
theorem exists_of_flatMap_woven {front back : List Event} {e : Event} (he : e.hook?.isSome)
    (h : beats.flatMap (Beat.woven entry completions id name) = front ++ e :: back) :
    ∃ before v after l r, beats = before ++ v :: after ∧
      v.marks entry completions id name = l ++ e :: r ∧
      front = before.flatMap (Beat.woven entry completions id name) ++ l := by
  induction beats generalizing front with
  | nil => simp at h
  | cons v beats ih =>
    obtain ⟨hv, hb⟩ := List.forall_mem_cons.1 hb
    rw [List.flatMap_cons] at h
    obtain ⟨rest, hwoven⟩ | ⟨front, rfl, hrest⟩ := append_eq_append_cons h
    · have hsplit : v.marks entry completions id name ++ v.events = front ++ e :: rest := hwoven
      obtain ⟨r, hmarks⟩ | ⟨l, -, hevents⟩ := append_eq_append_cons hsplit
      · exact ⟨[], v, beats, front, r, rfl, hmarks, rfl⟩
      · have hmem : e ∈ v.events := by simp [hevents]
        rw [hv e hmem] at he
        cases he
    · obtain ⟨before, u, after, l, r, rfl, hmarks, rfl⟩ := ih hb hrest
      exact ⟨v :: before, u, after, l, r, rfl, hmarks, by simp⟩

end

section

variable {b b' : Body} {id : Int32} {name : String} {tracer : TypeName} {pattern : StepPattern}
  {exits : Exits} {entry : Nat} {xs : List Piece} {c : Body}

theorem hook?_of_mem_beats {hooks : Hooks} (hb : b.Sound) (hfree : b.hooked? hooks = none)
    (host : Host σ) (call : Invocation) (heap : Heap) (world : σ) :
    ∀ beat ∈ b.beats hooks host call heap world, ∀ e ∈ beat.events, e.hook? = none := by
  obtain ⟨zs, hzs⟩ := hb.exists_zones
  rw [Body.beats_eq hzs]
  refine Program.hook?_of_mem_beats ?_ _ _ _
  intro i hi callee hcallee
  exact hook?_eq_none_of_hooked? hfree hi hcallee

/-- The record of an execution that is the old one woven determines the rest. -/
theorem weaves {hooks : Hooks} (hb : b.Sound) (hfree : b.hooked? hooks = none) {host : Host σ}
    {call : Invocation} {heap : Heap} {world : σ} {completions : List Label} {e e' : Execution}
    (he : (b.invoke hooks host call heap world).answer = .ok e) (hout : e'.outcome = e.outcome)
    (hevents : e'.trace.events = (b.beats hooks host call heap world).flatMap
      (Beat.woven entry completions id name))
    (hpath : (e'.trace.visits.map Visit.label).filter (· ∈ b.labels) =
      (b.beats hooks host call heap world).map (·.moment.label)) :
    e.Weaves b.labels entry completions id name (b.beats hooks host call heap world) e' := by
  have hplain := hook?_of_mem_beats hb hfree host call heap world
  obtain ⟨hvisits, hold⟩ := Body.trace_eq_beats hb he
  refine ⟨hout, hvisits, ?_, hevents, ?_, ?_, ?_⟩
  · rw [hpath, hvisits, List.map_map]
    rfl
  · rw [hevents, filter_woven hplain, hold, Body.record]
  · rw [Trace.count, hevents, countP_woven hplain, hvisits, List.countP_map]
    simp [Function.comp_def, Moment.visit]
  · rw [Trace.count, hevents, countP_woven hplain]
    simp

/-- Eight times the budget is always enough. -/
theorem correlated_invoke (hb : b.Sound) (hc : c.Sound) (hfree : b.hooked? (.on tracer) = none)
    (h : Woven b c entry exits.completions id name (.on tracer) xs) (host : Host σ)
    (call call' : Invocation) (hargs : call'.args = call.args)
    (hbudget : 8 * call.budget ≤ call'.budget) (heap : Heap) (world : σ)
    (hne : (b.invoke (.on tracer) host call heap world).answer ≠
      .error (.broken (.budgetExhausted call.budget))) :
    Invoked.Correlated b.labels entry exits.completions id name
      ⟨b.invoke (.on tracer) host call heap world, b.beats (.on tracer) host call heap world⟩
      ⟨c.invoke (.on tracer) host call' heap world, c.beats (.on tracer) host call' heap world⟩ := by
  obtain ⟨args, budget⟩ := call
  obtain ⟨args', budget'⟩ := call'
  obtain rfl : args' = args := hargs
  obtain ⟨zs, hzs⟩ := hb.exists_zones
  let p : Program σ := ⟨b, zs, .on tracer, args', host⟩
  have hp : p.Loaded := ⟨hb, hzs⟩
  have hw : Woven p.body c entry exits.completions id name p.hooks xs := h
  obtain ⟨n, r, t, hn, hends, hinv⟩ := Body.exists_ends_of_invoke hb hzs hne
  obtain ⟨m, u, hm, hu, hheap, hworld, hevents, hknown⟩ :=
    hw.exists_echo rfl hp hc hends (hw.alike_start heap world)
      (Program.fits_start _ _ _ _ _ heap world) (Woven.position_start (p := p) heap world)
  have henough : m ≤ budget' := by
    simp only at hn hbudget
    omega
  have hinv' : c.invoke (.on tracer) host ⟨args', budget'⟩ heap world = Body.answer r u :=
    Body.invoke_eq_answer hc (hw.loaded hp hc).zones hu henough
  have hbeats : b.beats (.on tracer) host ⟨args', budget⟩ heap world =
      p.beats n true (State.start b heap world) := by
    rw [Body.beats_eq hzs, hends.beats_eq true hn]
  cases r with
  | error fault =>
    simp only [Body.answer] at hinv hinv'
    refine ⟨by simp only [hinv, hinv', hheap], by simp only [hinv, hinv', hworld], ?_, ?_⟩
    · intro failure hfailure
      simpa only [hinv, hinv'] using hfailure
    · intro e he
      simp only [hinv] at he
      cases he
  | ok outcome =>
    simp only [Body.answer] at hinv hinv'
    refine ⟨by simp only [hinv, hinv', hheap], by simp only [hinv, hinv', hworld], ?_, ?_⟩
    · intro failure hfailure
      simp only [hinv] at hfailure
      cases hfailure
    · intro e he
      have hout : outcome = e.outcome := by
        simp only [hinv] at he
        exact congrArg Execution.outcome (Except.ok.inj he)
      refine ⟨⟨outcome, u.trace⟩, by simp only [hinv'], weaves hb hfree he hout ?_ ?_⟩
      · rw [hbeats]
        simp only [State.trace, hevents, State.start, List.append_nil, List.reverse_reverse]
      · rw [hbeats]
        refine (b.filter_trace u).trans ?_
        rw [show b.known u.path = _ from hknown]
        simp [State.start, Body.known, p]

/-- What the woven body executes is something that the old one executes, woven. -/
theorem exists_weaves (hb : b.Sound) (hc : c.Sound) (hfree : b.hooked? (.on tracer) = none)
    (h : Woven b c entry exits.completions id name (.on tracer) xs) {host : Host σ}
    {call : Invocation} {heap : Heap} {world : σ} {e' : Execution}
    (he : (c.invoke (.on tracer) host call heap world).answer = .ok e') :
    ∃ e, (b.invoke (.on tracer) host call heap world).answer = .ok e ∧
      e.Weaves b.labels entry exits.completions id name (b.beats (.on tracer) host call heap world)
        e' := by
  obtain ⟨args, budget⟩ := call
  obtain ⟨zs, hzs⟩ := hb.exists_zones
  let p : Program σ := ⟨b, zs, .on tracer, args, host⟩
  have hp : p.Loaded := ⟨hb, hzs⟩
  have hw : Woven p.body c entry exits.completions id name p.hooks xs := h
  have hzones := (hw.loaded hp hc).zones
  obtain ⟨m, u, hm, hu, hinv, -⟩ := Body.exists_ends_of_invoke_ok hc hzones he
  obtain ⟨n, r, t, hn, hends⟩ := hw.exists_ends_of_woven rfl hp hc hu (hw.alike_start heap world)
    (Program.fits_start _ _ _ _ _ heap world) (Woven.position_start (p := p) heap world)
  have hbudget : n ≤ budget := hn.trans hm
  have hne : (b.invoke (.on tracer) host ⟨args, budget⟩ heap world).answer ≠
      .error (.broken (.budgetExhausted budget)) := by
    rw [Body.invoke_eq_answer hb hzs hends hbudget]
    intro hx
    cases r with
    | error fault =>
      simp only [Body.answer] at hx
      exact hends.ne_budgetExhausted budget (congrArg _ (Failure.broken.inj (Except.error.inj hx)))
    | ok outcome => cases hx
  -- The longer budget changes nothing, since the shorter one was enough.
  have hshort : c.invoke (.on tracer) host ⟨args, budget⟩ heap world =
      Body.answer (.ok e'.outcome) u := Body.invoke_eq_answer hc hzones hu hm
  have hlong : c.invoke (.on tracer) host ⟨args, 8 * budget⟩ heap world =
      Body.answer (.ok e'.outcome) u := by
    refine Body.invoke_eq_answer hc hzones hu ?_
    simp only at hm ⊢
    omega
  have hsame := hlong.trans hshort.symm
  have hcorr : Invoked.Correlated b.labels entry exits.completions id name
      ⟨b.invoke (.on tracer) host ⟨args, budget⟩ heap world, _⟩
      ⟨c.invoke (.on tracer) host ⟨args, 8 * budget⟩ heap world, _⟩ :=
    correlated_invoke hb hc hfree h host ⟨args, budget⟩ ⟨args, 8 * budget⟩ rfl (le_refl _) heap world
      hne
  cases hx : (b.invoke (.on tracer) host ⟨args, budget⟩ heap world).answer with
  | error failure =>
    have hfail := hcorr.failure failure hx
    simp only [hsame, he] at hfail
    cases hfail
  | ok e =>
    obtain ⟨e'', he'', hweaves⟩ := hcorr.execution e hx
    simp only [hsame, he] at he''
    obtain rfl := Except.ok.inj he''
    exact ⟨e, rfl, hweaves⟩

/-- A step method and the same method with a correlated span, in a session of any length: each
invocation comes to the same end and leaves the same heap and host behind, provided that it is given
eight times the budget, and its record is the old one with the ends of the span woven in. -/
theorem correlate_transparent (hb : b.flaw? = none)
    (h : b.correlate id name (.on tracer) pattern = (.ok exits, b')) (host : Host σ)
    (calls : List Invocation) (heap : Heap) (world : σ)
    (hfin : ∀ v ∈ b.session (.on tracer) host calls heap world, ∀ n,
      v.result.answer ≠ .error (.broken (.budgetExhausted n))) :
    (∀ l ∈ exits.suspensions, l ∉ exits.completions) ∧
      ∃ entry, b.stepEntry pattern = .ok entry ∧ ∀ calls' : List Invocation,
        List.Forall₂ (fun call call' ↦ call'.args = call.args ∧ 8 * call.budget ≤ call'.budget)
            calls calls' →
          List.Forall₂ (Invoked.Correlated b.labels entry exits.completions id name)
            (b.session (.on tracer) host calls heap world)
            (b'.session (.on tracer) host calls' heap world) := by
  have hsound : b.Sound := Body.flaw?_eq_none.1 hb
  obtain ⟨c, xs, entry, hlen, hc, hfree, hentry, hdisj, hw⟩ := correlate_eq_ok hsound.nodup h
  have hsound' : b.lengthen.Sound := Body.sound_lengthen hb
  have hfree' : b.lengthen.hooked? (.on tracer) = none := (Body.hooked?_lengthen b _).trans hfree
  refine ⟨hdisj, entry, hentry, fun calls' hcalls ↦ ?_⟩
  induction hcalls generalizing heap world with
  | nil => exact .nil
  | @cons call call' calls calls' hcall _ ih =>
    obtain ⟨hargs, hbudget⟩ := hcall
    simp only [Body.session, List.forall_mem_cons] at hfin
    have hne := hfin.1 call.budget
    rw [← Body.invoke_lengthen b] at hne
    have hfirst := correlated_invoke hsound' hc hfree' hw host call call' hargs hbudget heap world
      hne
    rw [Body.labels_lengthen, Body.invoke_lengthen, Body.beats_lengthen, ← Body.invoke_eq_of_lengthen_eq hlen,
      ← Body.beats_lengthen c, ← hlen, Body.beats_lengthen] at hfirst
    simp only [Body.session]
    have hheap := hfirst.heap
    have hworld := hfirst.world
    simp only at hheap hworld
    rw [hheap, hworld]
    exact .cons hfirst (ih _ _ hfin.2)

/-- Conversely, all that the method with the span executes to its end the old one executes too, on
the same budget. -/
theorem correlate_reflects (hb : b.flaw? = none)
    (h : b.correlate id name (.on tracer) pattern = (.ok exits, b')) {host : Host σ}
    {call : Invocation} {heap : Heap} {world : σ} {e' : Execution}
    (he : (b'.invoke (.on tracer) host call heap world).answer = .ok e') :
    ∃ entry e, b.stepEntry pattern = .ok entry ∧
      (b.invoke (.on tracer) host call heap world).answer = .ok e ∧
      e.Weaves b.labels entry exits.completions id name (b.beats (.on tracer) host call heap world)
        e' := by
  have hsound : b.Sound := Body.flaw?_eq_none.1 hb
  obtain ⟨c, xs, entry, hlen, hc, hfree, hentry, -, hw⟩ := correlate_eq_ok hsound.nodup h
  have hsound' : b.lengthen.Sound := Body.sound_lengthen hb
  have hfree' : b.lengthen.hooked? (.on tracer) = none := (Body.hooked?_lengthen b _).trans hfree
  rw [Body.invoke_eq_of_lengthen_eq hlen] at he
  obtain ⟨e, he, hweaves⟩ := exists_weaves hsound' hc hfree' hw he
  rw [Body.invoke_lengthen] at he
  rw [Body.labels_lengthen, Body.beats_lengthen] at hweaves
  exact ⟨entry, e, hentry, he, hweaves⟩

/-- The ends of the span that are recorded bear its number and its name. -/
theorem correlate_bears (hb : b.flaw? = none)
    (h : b.correlate id name (.on tracer) pattern = (.ok exits, b')) {host : Host σ}
    {call : Invocation} {heap : Heap} {world : σ} {e' : Execution}
    (he : (b'.invoke (.on tracer) host call heap world).answer = .ok e') :
    ∀ v ∈ e'.trace.events, v.isCorrelated = true → v = .asyncEnter id name ∨ v = .asyncExit id name := by
  have hsound : b.Sound := Body.flaw?_eq_none.1 hb
  obtain ⟨c, xs, entry, -, -, hfree, -, -, -⟩ := correlate_eq_ok hsound.nodup h
  obtain ⟨entry, e, -, -, hweaves⟩ := correlate_reflects hb h he
  intro v hv hends
  rw [hweaves.events] at hv
  obtain ⟨beat, hbeat, hv⟩ := List.mem_flatMap.1 hv
  obtain ⟨-, rfl⟩ | ⟨-, rfl⟩ | hv := Beat.mem_woven.1 hv
  · exact .inl rfl
  · exact .inr rfl
  · have hplain := hook?_of_mem_beats hsound hfree host call heap world beat hbeat v hv
    rw [not_isCorrelated_of_hook? hplain] at hends
    cases hends

/-- Whether or not it comes to an end, the method with the span records what the old one records, with
the ends of the span woven in, as far as its budget takes it. -/
theorem correlate_record (hb : b.flaw? = none)
    (h : b.correlate id name (.on tracer) pattern = (.ok exits, b')) (host : Host σ)
    (call : Invocation) (heap : Heap) (world : σ) :
    ∃ entry, b.stepEntry pattern = .ok entry ∧
      b'.record (.on tracer) host call heap world <+:
        (b.beats (.on tracer) host call heap world).flatMap
          (Beat.woven entry exits.completions id name) := by
  have hsound : b.Sound := Body.flaw?_eq_none.1 hb
  obtain ⟨c, xs, entry, hlen, hc, hfree, hentry, -, hw⟩ := correlate_eq_ok hsound.nodup h
  have hsound' : b.lengthen.Sound := Body.sound_lengthen hb
  obtain ⟨zs, hzs⟩ := hsound'.exists_zones
  let p : Program σ := ⟨b.lengthen, zs, .on tracer, call.args, host⟩
  have hp : p.Loaded := ⟨hsound', hzs⟩
  have hw : Woven p.body c entry exits.completions id name p.hooks xs := hw
  have hrecord := hw.record_prefix rfl hp hc (hw.alike_start heap world)
    (Program.fits_start _ _ _ _ _ heap world) (Woven.position_start (p := p) heap world)
    call.budget true
  refine ⟨entry, hentry, ?_⟩
  rw [Body.record, ← b'.beats_lengthen, hlen, c.beats_lengthen, ← b.beats_lengthen,
    Body.beats_eq (b := c) (hw.loaded hp hc).zones, Body.beats_eq hzs]
  exact hrecord

end

def parkOrPublish : Body where
  code := [⟨⟨0⟩, .ldarg 0⟩, ⟨⟨1⟩, .ldfld ⟨⟨"App", "Step"⟩, "<>1__state", .int32⟩⟩, ⟨⟨2⟩, .pop⟩,
    ⟨⟨3⟩, .ldarg 1⟩, ⟨⟨4⟩, .branch .ifFalse .short ⟨6⟩⟩, ⟨⟨5⟩, .branch .leave .short ⟨7⟩⟩,
    ⟨⟨6⟩, .branch .leave .short ⟨8⟩⟩, ⟨⟨7⟩, .call (.static ⟨"App", "Builder"⟩ "SetResult" [] .void)⟩,
    ⟨⟨8⟩, .ret⟩]
  locals := []
  regions := []
  initLocals := false
  next := 9

theorem correlate_transparent_parkOrPublish :
    ∃ b' entry, parkOrPublish.correlate 7 "Fetch" (.on ⟨"App", "Tracer"⟩) .standard =
        (.ok ⟨⟨7⟩, [⟨5⟩], [⟨6⟩]⟩, b') ∧
      parkOrPublish.stepEntry .standard = .ok entry ∧
      List.Forall₂ (Invoked.Correlated parkOrPublish.labels entry [⟨5⟩] 7 "Fetch")
        (parkOrPublish.session (.on ⟨"App", "Tracer"⟩) .idle
          [⟨[.object 0, .int 0], 9⟩, ⟨[.object 0, .int 1], 9⟩] .empty ())
        (b'.session (.on ⟨"App", "Tracer"⟩) .idle
          [⟨[.object 0, .int 0], 72⟩, ⟨[.object 0, .int 1], 80⟩] .empty ()) := by
  have hok : (parkOrPublish.correlate 7 "Fetch" (.on ⟨"App", "Tracer"⟩) .standard).1 =
      .ok ⟨⟨7⟩, [⟨5⟩], [⟨6⟩]⟩ := by decide +kernel
  obtain ⟨b', hb⟩ : ∃ b', parkOrPublish.correlate 7 "Fetch" (.on ⟨"App", "Tracer"⟩) .standard =
      (.ok ⟨⟨7⟩, [⟨5⟩], [⟨6⟩]⟩, b') := ⟨_, Prod.ext hok rfl⟩
  have hrun : (parkOrPublish.session (.on ⟨"App", "Tracer"⟩) .idle
      [⟨[.object 0, .int 0], 9⟩, ⟨[.object 0, .int 1], 9⟩] .empty ()).all
        (fun v ↦ v.result.answer.toBool) = true := by decide +kernel
  obtain ⟨-, entry, hentry, hsession⟩ := correlate_transparent (by decide) hb .idle
    [⟨[.object 0, .int 0], 9⟩, ⟨[.object 0, .int 1], 9⟩] .empty () fun v hv n he ↦ by
      have hv := List.all_eq_true.1 hrun v hv
      rw [he] at hv
      cases hv
  refine ⟨b', entry, hb, hentry, hsession _ ?_⟩
  exact .cons ⟨rfl, by decide⟩ (.cons ⟨rfl, by decide⟩ .nil)

end CilSpan
