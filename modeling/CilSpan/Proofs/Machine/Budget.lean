import CilSpan.Proofs.Machine.Beats

namespace CilSpan

variable {σ : Type}

namespace Program

def deedsAt (p : Program σ) (s : State σ) : List Deed :=
  match p.body.code[s.position]? with
  | none => []
  | some i => i.op.deeds p.hooks s.heap.next s.stack

def deeds (p : Program σ) : Nat → State σ → List Deed
  | 0, _ => []
  | left + 1, s =>
    p.deedsAt s ++ match p.step s with
    | .next t | .jumped t => p.deeds left t
    | .ended _ _ | .broken _ _ => []

variable {p : Program σ} {i : Instr} {s t : State σ} {n m : Nat} {r : Except Fault Outcome}

theorem outside_depart (s : State σ) (target : Nat) (handlers : List Nat) :
    (s.depart target handlers).state.outside = s.outside := by
  cases handlers <;> rfl

theorem outside_raise (p : Program σ) (exception : Value) (origin first : Nat) (s : State σ) :
    (p.raise exception origin first s).state.outside = s.outside := by
  unfold raise
  split
  · rfl
  · split <;> rfl

theorem Effect.outside_eq {turn : Turn σ} (h : p.Effect i s turn) : turn.state.outside =
    (i.op.deeds p.hooks s.heap.next s.stack).foldl (Deed.perform p.host) s.outside := by
  cases h with
  | next h | branch h | returned h | broken h => exact h.outside
  | leave h => exact (outside_depart _ _ _).trans h.outside
  | raise h => exact (outside_raise _ _ _ _ _).trans h.outside
  | resume hop =>
    rw [outside_depart, hop]
    rfl
  | unwind hop =>
    rw [outside_raise, hop]
    rfl

theorem outside_step (p : Program σ) (s : State σ) :
    (p.step s).state.outside = (p.deedsAt s).foldl (Deed.perform p.host) s.outside := by
  cases hi : p.body.code[s.position]? with
  | none =>
    simp only [step, deedsAt, hi]
    rfl
  | some i =>
    simp only [step, deedsAt, hi]
    exact (effect_exec p i _).outside_eq

theorem deeds_of_goes (h : (p.step s).Goes t) (left : Nat) :
    p.deeds (left + 1) s = p.deedsAt s ++ p.deeds left t := by
  obtain h | h := h <;> simp only [deeds, h]

theorem deeds_of_ended {outcome : Outcome} (h : p.step s = .ended outcome t) (left : Nat) :
    p.deeds (left + 1) s = p.deedsAt s := by
  simp only [deeds, h, List.append_nil]

theorem deeds_of_broken {fault : Fault} (h : p.step s = .broken fault t) (left : Nat) :
    p.deeds (left + 1) s = p.deedsAt s := by
  simp only [deeds, h, List.append_nil]

theorem Steps.outside_eq (h : p.Steps n s t) :
    t.outside = (p.deeds n s).foldl (Deed.perform p.host) s.outside := by
  induction h with
  | zero => rfl
  | cons hgo _ ih =>
    rw [deeds_of_goes hgo, List.foldl_append, ← outside_step, Turn.state_of_goes hgo, ih]

theorem Ends.outside_eq (h : p.Ends n s r t) :
    t.outside = (p.deeds n s).foldl (Deed.perform p.host) s.outside := by
  induction h with
  | ended hs => rw [deeds_of_ended hs, ← outside_step, hs, Turn.state]
  | broken hs => rw [deeds_of_broken hs, ← outside_step, hs, Turn.state]
  | cons hgo _ ih =>
    rw [deeds_of_goes hgo, List.foldl_append, ← outside_step, Turn.state_of_goes hgo, ih]

/-- A budget beyond the end of a run adds no deeds. -/
theorem Ends.deeds_eq (h : p.Ends n s r t) {left : Nat} (hn : n ≤ left) :
    p.deeds left s = p.deeds n s := by
  induction h generalizing left with
  | ended hs =>
    obtain ⟨left, rfl⟩ := Nat.exists_eq_add_of_le' hn
    rw [deeds_of_ended hs, deeds_of_ended hs]
  | broken hs =>
    obtain ⟨left, rfl⟩ := Nat.exists_eq_add_of_le' hn
    rw [deeds_of_broken hs, deeds_of_broken hs]
  | cons hgo _ ih =>
    obtain ⟨left, rfl⟩ := Nat.exists_eq_add_of_le' (show 1 ≤ left by omega)
    rw [deeds_of_goes hgo, deeds_of_goes hgo, ih (by omega)]

/-- The deeds of a run go on where those of its beginning stop. -/
theorem Steps.deeds_add (h : p.Steps n s t) (left : Nat) :
    p.deeds (n + left) s = p.deeds n s ++ p.deeds left t := by
  induction h with
  | zero => rw [Nat.zero_add, deeds, List.nil_append]
  | cons hgo _ ih => rw [Nat.add_right_comm, deeds_of_goes hgo, deeds_of_goes hgo, ih,
      List.append_assoc]

theorem Ends.exists_steps (h : p.Ends n s r t) (hm : m < n) : ∃ u, p.Steps m s u := by
  induction h generalizing m with
  | ended | broken =>
    obtain rfl : m = 0 := by omega
    exact ⟨_, .zero _⟩
  | cons hgo _ ih =>
    cases m with
    | zero => exact ⟨_, .zero _⟩
    | succ m =>
      obtain ⟨v, hv⟩ := ih (Nat.lt_of_succ_lt_succ hm)
      exact ⟨v, .cons hgo hv⟩

theorem Steps.run_eq (h : p.Steps n s t) (budget : Nat) :
    p.run budget n s = (.error (.budgetExhausted budget), t) := by
  induction h with
  | zero => rfl
  | cons hgo _ ih => rw [run_of_goes hgo rfl, ih]

theorem Ends.length_path {outcome : Outcome} (h : p.Ends n s (.ok outcome) t) :
    t.path.length = s.path.length + n := by
  generalize hr : (.ok outcome : Except Fault Outcome) = r at h
  induction h with
  | ended hs =>
    obtain ⟨i, hi⟩ := exists_of_step_ended hs
    have hpath := (logs_step hi).path
    rw [hs] at hpath
    exact congrArg List.length hpath
  | broken => cases hr
  | cons hgo _ ih =>
    obtain ⟨i, hi⟩ := exists_of_step_goes hgo
    have hpath := (logs_step hi).path
    rw [Turn.state_of_goes hgo] at hpath
    rw [ih hr, hpath, List.length_cons]
    omega

end Program

namespace Body

def deeds (b : Body) (hooks : Hooks) (host : Host σ) (call : Invocation) (heap : Heap)
    (world : σ) : List Deed :=
  match b.flaw?, Program.ofBody b hooks call.args host with
  | none, .ok p => p.deeds call.budget (.start b heap world)
  | _, _ => []

variable {b : Body} {hooks : Hooks} {host : Host σ} {call : Invocation} {heap : Heap} {world : σ}

theorem invoke_of_flaw {flaw : Flaw} (h : b.flaw? = some flaw) :
    b.invoke hooks host call heap world = ⟨.error (.invalid flaw), heap, world⟩ := by
  simp only [invoke, h]

theorem deeds_of_flaw {flaw : Flaw} (h : b.flaw? = some flaw) :
    b.deeds hooks host call heap world = [] := by
  simp only [deeds, h]

theorem outside_answer (r : Except Fault Outcome) (s : State σ) :
    ((answer r s).heap, (answer r s).world) = s.outside := by
  cases r <;> rfl

section

variable (h : b.Sound) {zs : List Zone} (hz : List.Forall₂ (Zone.Of b) b.regions zs)
include h hz

theorem deeds_eq : b.deeds hooks host call heap world =
    (⟨b, zs, hooks, call.args, host⟩ : Program σ).deeds call.budget (.start b heap world) := by
  simp only [deeds, flaw?_eq_none.2 h, ofBody_eq_ok hz]

/-- A budget that a run uses up is reported, with what the run has done outside until then. -/
theorem invoke_of_steps {t : State σ} (hs : (⟨b, zs, hooks, call.args, host⟩ : Program σ).Steps
    call.budget (.start b heap world) t) : b.invoke hooks host call heap world =
      answer (.error (.budgetExhausted call.budget)) t := by
  rw [invoke_eq_run h hz, hs.run_eq]

end

/-- An invocation leaves the heap and the host as its deeds leave them. -/
theorem outside_invoke (b : Body) (hooks : Hooks) (host : Host σ) (call : Invocation) (heap : Heap)
    (world : σ) :
    let run := b.invoke hooks host call heap world
    (run.heap, run.world) =
      (b.deeds hooks host call heap world).foldl (Deed.perform host) (heap, world) := by
  dsimp only
  cases hb : b.flaw? with
  | some flaw => rw [invoke_of_flaw hb, deeds_of_flaw hb, List.foldl_nil]
  | none =>
    have h := flaw?_eq_none.1 hb
    obtain ⟨zs, hz⟩ := h.exists_zones
    rw [deeds_eq h hz]
    obtain ⟨t, hs, -⟩ | ⟨n, r, t, hn, he⟩ := (⟨b, zs, hooks, call.args, host⟩ : Program σ)
      |>.steps_or_ends call.budget (.start b heap world)
    · rw [invoke_of_steps h hz hs, outside_answer]
      exact hs.outside_eq
    · rw [invoke_eq_answer h hz he hn, outside_answer, he.deeds_eq hn]
      exact he.outside_eq

/-- A budget that was not used up could as well have been larger. -/
theorem invoke_of_le {args : List Value} {budget more : Nat}
    (hne : (b.invoke hooks host ⟨args, budget⟩ heap world).answer ≠
      .error (.broken (.budgetExhausted budget))) (hle : budget ≤ more) :
    b.invoke hooks host ⟨args, more⟩ heap world =
      b.invoke hooks host ⟨args, budget⟩ heap world := by
  cases hb : b.flaw? with
  | some flaw => rw [invoke_of_flaw hb, invoke_of_flaw hb]
  | none =>
    have h := flaw?_eq_none.1 hb
    obtain ⟨zs, hz⟩ := h.exists_zones
    obtain ⟨n, r, t, hn, he, hrun⟩ := exists_ends_of_invoke h hz hne
    rw [hrun]
    exact invoke_eq_answer h hz he (hn.trans hle)

end Body

/-- A budget only cuts a run short. A run that it was large enough for is the same with every larger
one. One that ends with an outcome has executed `k` instructions, within its budget, and they are
its trace; every budget below `k` is used up, and then the heap and the host have seen the first of
what the whole run does to them, and no more. -/
theorem budget_only_cuts (b : Body) (hooks : Hooks) (args : List Value) (host : Host σ)
    (heap : Heap) (world : σ) :
    let run budget := b.invoke hooks host ⟨args, budget⟩ heap world
    let deeds budget := b.deeds hooks host ⟨args, budget⟩ heap world
    (∀ budget, ((run budget).heap, (run budget).world) =
      (deeds budget).foldl (Deed.perform host) (heap, world)) ∧
    (∀ budget, (run budget).answer ≠ .error (.broken (.budgetExhausted budget)) →
      ∀ more, budget ≤ more → run more = run budget) ∧
    ∀ budget e, (run budget).answer = .ok e → ∃ p k t,
      Program.ofBody b hooks args host = .ok p ∧
      p.Ends k (.start b heap world) (.ok e.outcome) t ∧
      k ≤ budget ∧ e.trace.visits.length = k ∧
      (∀ enough, k ≤ enough → run enough = run budget) ∧
      ∀ less < k, (run less).answer = .error (.broken (.budgetExhausted less)) ∧
        deeds less <+: deeds budget := by
  intro run deeds
  refine ⟨fun _ ↦ b.outside_invoke _ _ _ _ _, fun _ hne _ hle ↦ Body.invoke_of_le hne hle,
    fun budget e hok ↦ ?_⟩
  have h := Body.sound_of_invoke_ok hok
  obtain ⟨zs, hz⟩ := h.exists_zones
  obtain ⟨k, t, hk, he, -, htrace⟩ := Body.exists_ends_of_invoke_ok h hz hok
  have hk : k ≤ budget := hk
  have hlength : e.trace.visits.length = k := by
    rw [htrace, State.trace, List.length_map, List.length_reverse, he.length_path]
    exact Nat.zero_add k
  have hrun (enough : Nat) (hle : k ≤ enough) : run enough = Body.answer (.ok e.outcome) t :=
    Body.invoke_eq_answer h hz he hle
  refine ⟨_, k, t, Body.ofBody_eq_ok hz hooks args host, he, hk, hlength,
    fun enough hle ↦ (hrun enough hle).trans (hrun budget hk).symm, fun less hless ↦ ?_⟩
  obtain ⟨u, hu⟩ := he.exists_steps hless
  have hcut : run less = Body.answer (.error (.budgetExhausted less)) u :=
    Body.invoke_of_steps h hz hu
  refine ⟨congrArg Result.answer hcut, ?_⟩
  have hadd := hu.deeds_add (budget - less)
  rw [Nat.add_sub_cancel' (by omega : less ≤ budget)] at hadd
  simp only [deeds, Body.deeds_eq h hz, hadd]
  exact List.prefix_append _ _

def filledObject : Body where
  code := [⟨⟨0⟩, .newobj (.constructor ⟨"App", "Node"⟩ [])⟩, ⟨⟨1⟩, .dup⟩, ⟨⟨2⟩, .ldc 5⟩,
    ⟨⟨3⟩, .stfld ⟨⟨"App", "Node"⟩, "value", .int32⟩⟩, ⟨⟨4⟩, .ret⟩]
  locals := []
  regions := []
  initLocals := false
  next := 5

/-- The object is made within three instructions, but its field is not set. -/
theorem budget_only_cuts_filledObject :
    let run budget := filledObject.invoke (.on ⟨"App", "Tracer"⟩) .idle ⟨[], budget⟩ .empty ()
    let deeds budget := filledObject.deeds (.on ⟨"App", "Tracer"⟩) .idle ⟨[], budget⟩ .empty ()
    run 9 = run 5 ∧ run 7 = run 5 ∧ (run 3).answer = .error (.broken (.budgetExhausted 3)) ∧
      deeds 3 <+: deeds 5 ∧ (deeds 3).length = 2 ∧ (deeds 5).length = 3 := by
  intro run deeds
  have hlength : (run 5).answer.toOption.map (·.trace.visits.length) = some 5 := by decide +kernel
  obtain ⟨e, hok, he⟩ := Body.exists_ok_of_map hlength
  obtain ⟨-, hmore, hends⟩ :=
    budget_only_cuts filledObject (.on ⟨"App", "Tracer"⟩) [] .idle .empty ()
  obtain ⟨p, k, t, -, -, hk, hvisits, henough, hless⟩ := hends 5 e hok
  obtain rfl : k = 5 := hvisits.symm.trans he
  obtain ⟨hcut, hprefix⟩ := hless 3 (by decide)
  have hne : (run 5).answer ≠ .error (.broken (.budgetExhausted 5)) := hok ▸ nofun
  exact ⟨henough 9 (by decide), hmore 5 hne 7 (by decide), hcut, hprefix, by decide +kernel,
    by decide +kernel⟩

end CilSpan
