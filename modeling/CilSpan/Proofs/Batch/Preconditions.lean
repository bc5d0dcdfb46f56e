import CilSpan.Proofs.Batch.Isolation
import CilSpan.Proofs.Span.Refusals

namespace CilSpan

namespace TypeDecl

variable {t : TypeDecl} {hook : Hook}

def Offers (t : TypeDecl) (hook : Hook) : Prop :=
  ∃ m ∈ t.methods, m.name = hook.name ∧ m.isStatic = true ∧ m.result = .void ∧ m.params = hook.params

theorem isHook_iff {m : MethodDecl} : m.isHook hook = true ↔
    m.name = hook.name ∧ m.isStatic = true ∧ m.result = .void ∧ m.params = hook.params := by
  simp only [MethodDecl.isHook, TypeName.isVoid, Bool.and_eq_true, decide_eq_true_eq, and_assoc]

theorem findHook_of_offers (h : t.Offers hook) : t.findHook hook = .ok (hook.callee t.type) := by
  obtain ⟨m, hm, hhook⟩ := h
  unfold findHook
  cases hf : t.methods.find? fun m ↦ m.isHook hook with
  | none => exact absurd (isHook_iff.2 hhook) (List.find?_eq_none.1 hf m hm)
  | some m' =>
    obtain ⟨hname, -, hresult, hparams⟩ :=
      isHook_iff.1 (List.find?_some (p := fun m ↦ MethodDecl.isHook m hook) hf)
    dsimp only
    rw [hname, hresult, hparams]
    rfl

theorem findHook_of_not_offers (h : ¬t.Offers hook) :
    t.findHook hook = .error (.missingHook t.type.full hook.signature) := by
  unfold findHook
  cases hf : t.methods.find? fun m ↦ m.isHook hook with
  | none => rfl
  | some m =>
    have hm := isHook_iff.1 (List.find?_some (p := fun m ↦ MethodDecl.isHook m hook) hf)
    exact absurd ⟨m, List.mem_of_find?_eq_some hf, hm⟩ h

/-- The hooks of a tracer are the standard ones on its type. If it lacks some, the first of them is
named. -/
theorem hooks_cases (t : TypeDecl) :
    (t.hooks = .ok (.on t.type) ∧ ∀ hook, t.Offers hook) ∨
      ∃ before hook after, Hook.all = before ++ hook :: after ∧ (∀ h ∈ before, t.Offers h) ∧
        ¬t.Offers hook ∧ t.hooks = .error (.missingHook t.type.full hook.signature) := by
  unfold hooks
  by_cases henter : t.Offers .enter
  swap
  · refine .inr ⟨[], .enter, [.exit, .asyncEnter, .asyncExit], rfl, nofun, henter, ?_⟩
    rw [findHook_of_not_offers henter]
    rfl
  by_cases hexit : t.Offers .exit
  swap
  · refine .inr ⟨[.enter], .exit, [.asyncEnter, .asyncExit], rfl, by simpa using henter, hexit, ?_⟩
    rw [findHook_of_offers henter, findHook_of_not_offers hexit]
    rfl
  by_cases hasyncEnter : t.Offers .asyncEnter
  swap
  · refine .inr ⟨[.enter, .exit], .asyncEnter, [.asyncExit], rfl, by simp [henter, hexit],
      hasyncEnter, ?_⟩
    rw [findHook_of_offers henter, findHook_of_offers hexit, findHook_of_not_offers hasyncEnter]
    rfl
  by_cases hasyncExit : t.Offers .asyncExit
  swap
  · refine .inr ⟨[.enter, .exit, .asyncEnter], .asyncExit, [], rfl,
      by simp [henter, hexit, hasyncEnter], hasyncExit, ?_⟩
    rw [findHook_of_offers henter, findHook_of_offers hexit, findHook_of_offers hasyncEnter,
      findHook_of_not_offers hasyncExit]
    rfl
  refine .inl ⟨?_, fun hook ↦ by cases hook <;> assumption⟩
  rw [findHook_of_offers henter, findHook_of_offers hexit, findHook_of_offers hasyncEnter,
    findHook_of_offers hasyncExit]
  rfl

theorem hooks_of_offers (h : ∀ hook, t.Offers hook) :
    t.hooks = .ok (.on t.type) := by
  obtain ⟨hhooks, -⟩ | ⟨_, hook, _, -, -, hlack, -⟩ := t.hooks_cases
  · exact hhooks
  · exact absurd (h hook) hlack

end TypeDecl

def MethodDecl.stepCount (m : MethodDecl) (name : String) : Nat :=
  match m.machine with
  | some machine => machine.methods.countP fun d ↦ d.name = name && d.body.isSome
  | none => 0

theorem StateMachine.length_candidates (machine : StateMachine MethodDecl) (name : String) :
    (machine.candidates name).length =
      machine.methods.countP fun d ↦ d.name = name && d.body.isSome := by
  rw [candidates, List.length_map, ← List.countP_eq_length_filter]
  conv_rhs => rw [← List.zipIdx_map_fst 0 machine.methods, List.countP_map]
  rfl

theorem MethodDecl.stepCount_of_machine {m : MethodDecl} {machine : StateMachine MethodDecl}
    {name : String} (h : m.machine = some machine) :
    m.stepCount name = (machine.candidates name).length := by
  rw [stepCount, h, StateMachine.length_candidates]

/-- An asynchronous method, marked as such and no generator, that does not have exactly one step
method. -/
def Config.Misfit (c : Config) (s : Site) : Prop :=
  s.method.isGenerator s.owner = false ∧ c.step.asyncMark ∈ s.method.attributes ∧
    s.method.stepCount c.step.stepMethod ≠ 1

instance (c : Config) : DecidablePred c.Misfit := fun _ ↦ inferInstanceAs (Decidable (_ ∧ _))

namespace Plan

variable {p : Plan} {module : ModuleDecl} {o : Owner} {m : MethodDecl} {next : Int32}

theorem shape_eq_async :
    p.shape o m = .async ↔ m.isGenerator o = false ∧ p.config.step.asyncMark ∈ m.attributes := by
  unfold shape
  cases m.isGenerator o with
  | true => simp
  | false =>
    by_cases h : p.config.step.asyncMark ∈ m.attributes <;> simp [MethodDecl.isAsync, h]

theorem misfit_iff {s : Site} : p.config.Misfit s ↔
    p.shape s.owner s.method = .async ∧ s.method.stepCount p.config.step.stepMethod ≠ 1 := by
  rw [shape_eq_async, and_assoc]
  rfl

def complaint (p : Plan) (s : Site) : Obstacle :=
  .stepCount (s.method.fullName s.owner) p.config.step.stepMethod
    (s.method.stepCount p.config.step.stepMethod)

theorem obstacle?_eq (p : Plan) (s : Site) : p.obstacle? s.owner s.method =
    if p.config.Misfit s then some (p.complaint s) else none := by
  unfold obstacle?
  cases hs : p.shape s.owner s.method with
  | async =>
    simp only [misfit_iff, hs, true_and, ne_eq, ite_not, complaint, MethodDecl.stepCount]
    cases s.method.machine with
    | none => rfl
    | some machine => simp only [StateMachine.length_candidates]
  | plain | generator => simp [misfit_iff, hs]

/-- The methods chosen are gone through in the order of declaration. -/
theorem findSome?_select (p : Plan) (module : ModuleDecl) :
    ((p.config.select module).findSome? fun slot ↦
      (module.method? slot).bind fun (owner, m) ↦ p.obstacle? owner m) =
      (module.sites.filter p.config.Chooses).findSome? fun s ↦ p.obstacle? s.owner s.method := by
  rw [Config.select_eq, List.findSome?_map, ← List.head?_filterMap, ← List.head?_filterMap]
  refine congrArg List.head? (List.filterMap_congr fun s hs ↦ ?_)
  rw [Function.comp_apply, ModuleDecl.mem_sites.1 (List.mem_of_mem_filter hs)]
  rfl

theorem precheck_eq_ok : p.precheck module (p.config.select module) = .ok () ↔
    ∀ s ∈ module.sites.filter p.config.Chooses, ¬p.config.Misfit s := by
  unfold precheck
  rw [findSome?_select]
  cases h : (module.sites.filter p.config.Chooses).findSome? fun s ↦
      p.obstacle? s.owner s.method with
  | none =>
    have hnone := List.findSome?_eq_none_iff.1 h
    simpa only [true_iff, obstacle?_eq, ite_eq_right_iff, reduceCtorEq, imp_false] using hnone
  | some obstacle =>
    obtain ⟨s, hs, he⟩ := List.exists_of_findSome?_eq_some h
    rw [obstacle?_eq] at he
    split at he
    · rename_i hmisfit
      exact ⟨nofun, fun hall ↦ absurd hmisfit (hall s hs)⟩
    · cases he

/-- The first method that does not fit is named, with what was found. -/
theorem exists_of_precheck {obstacle : Obstacle}
    (h : p.precheck module (p.config.select module) = .error obstacle) :
    ∃ before s after, module.sites.filter p.config.Chooses = before ++ s :: after ∧
      (∀ s' ∈ before, ¬p.config.Misfit s') ∧ p.config.Misfit s ∧ obstacle = p.complaint s := by
  unfold precheck at h
  rw [findSome?_select] at h
  cases hf : (module.sites.filter p.config.Chooses).findSome? fun s ↦
      p.obstacle? s.owner s.method with
  | none =>
    rw [hf] at h
    cases h
  | some found =>
    rw [hf] at h
    obtain rfl := Except.error.inj h
    obtain ⟨before, s, after, hsplit, hs, hbefore⟩ := List.findSome?_eq_some_iff.1 hf
    simp only [obstacle?_eq] at hs hbefore
    refine ⟨before, s, after, hsplit, fun s' hs' hmisfit ↦ ?_, ?_⟩
    · have hnone := hbefore s' hs'
      rw [if_pos hmisfit] at hnone
      cases hnone
    · split at hs
      · exact ⟨‹_›, (Option.some.inj hs).symm⟩
      · cases hs

/-- The one step method of an asynchronous method that fits, and its body. -/
theorem exists_step {name : String} (h : m.stepCount name = 1) :
    ∃ machine index step body, m.machine = some machine ∧ machine.candidates name = [index] ∧
      machine.methods[index]? = some step ∧ step.name = name ∧ step.body = some body := by
  cases hm : m.machine with
  | none =>
    rw [MethodDecl.stepCount, hm] at h
    cases h
  | some machine =>
    rw [MethodDecl.stepCount_of_machine hm] at h
    obtain ⟨index, hindex⟩ := List.length_eq_one_iff.1 h
    have hmem : index ∈ machine.candidates name := hindex ▸ List.mem_singleton_self index
    obtain ⟨⟨step, k⟩, hk, rfl⟩ := List.mem_map.1 hmem
    obtain ⟨hk, hstep⟩ := List.mem_filter.1 hk
    simp only [Bool.and_eq_true, decide_eq_true_eq] at hstep
    obtain ⟨body, hbody⟩ := Option.isSome_iff_exists.1 hstep.2
    exact ⟨machine, k, step, body, rfl, hindex, List.mk_mem_zipIdx_iff_getElem?.1 hk, hstep.1, hbody⟩

/-- An asynchronous method whose step method has another body. -/
def withStep (m : MethodDecl) (machine : StateMachine MethodDecl) (index : Nat) (step : MethodDecl)
    (body : Body) : MethodDecl :=
  { m with
    machine := some { machine with
      methods := machine.methods.set index { step with body := some body } } }

/-- What treating a method can come to if nothing is missing around its body. A correlation number
is used up exactly if the method is asynchronous. -/
inductive Handles (p : Plan) (o : Owner) (m : MethodDecl) (next : Int32) :
    Treated (Except MethodFailure Handling) MethodDecl → Prop
  | skipped (hs : p.shape o m = .generator) :
    Handles p o m next ⟨.ok (.skipped generatorReason), m, next⟩
  | unbracketed (hs : p.shape o m = .plain) (cause : Refusal) (hc : cause.OfBody) :
    Handles p o m next ⟨.error ⟨m.fullName o, cause⟩, m, next⟩
  | bracketed (hs : p.shape o m = .plain) (base : Option TypeName) (body body' : Body)
    (hbase : chained o m = .ok base) (hbody : m.body = some body)
    (h : body.bracket base m.result (m.fullName o) p.hooks = (.ok (), body')) :
    Handles p o m next ⟨.ok (.instrumented .bracketed), { m with body := some body' }, next⟩
  | uncorrelated (hs : p.shape o m = .async) (cause : Refusal) (hc : cause.OfBody) :
    Handles p o m next ⟨.error ⟨m.fullName o, cause⟩, m, next + 1⟩
  | correlated (hs : p.shape o m = .async) (machine : StateMachine MethodDecl) (index : Nat)
    (step : MethodDecl) (body body' : Body) (exits : Exits) (hm : m.machine = some machine)
    (hindex : machine.candidates p.config.step.stepMethod = [index])
    (hstep : machine.methods[index]? = some step) (hbody : step.body = some body)
    (h : body.correlate next (m.fullName o) p.hooks p.config.step = (.ok exits, body')) :
    Handles p o m next ⟨.ok (.instrumented (.correlated next)),
      withStep m machine index step body', next + 1⟩

theorem correlate_of_step {machine : StateMachine MethodDecl} {index : Nat} {step : MethodDecl}
    {body : Body} (hm : m.machine = some machine)
    (hindex : machine.candidates p.config.step.stepMethod = [index])
    (hstep : machine.methods[index]? = some step) (hbody : step.body = some body) :
    p.correlate o m next =
      match body.correlate next (m.fullName o) p.hooks p.config.step with
      | (.error e, _) => ⟨.error e, m, next + 1⟩
      | (.ok _, body) => ⟨.ok (.correlated next), withStep m machine index step body, next + 1⟩ := by
  unfold correlate
  simp only [hm, StateMachine.stepIndex, hindex, hstep, hbody, drawId]
  rfl

theorem ofBody_of_chained {e : Refusal} (h : chained o m = .error e) : e.OfBody := by
  unfold chained at h
  split at h
  · split at h <;> cases h
    trivial
  · cases h

theorem bracket_handles (hs : p.shape o m = .plain) (hbody : m.body.isSome = true)
    (next : Int32) : p.Handles o m next (p.treat o m next) := by
  obtain ⟨body, hbody⟩ := Option.isSome_iff_exists.1 hbody
  have hb := bracket_of_body (p := p) (o := o) hbody
  cases hbase : chained o m with
  | error e =>
    rw [hbase] at hb
    have ht : p.treat o m next = ⟨.error ⟨m.fullName o, e⟩, m, next⟩ := by
      simp only [treat, hs, hb]
    exact ht ▸ .unbracketed hs e (ofBody_of_chained hbase)
  | ok base =>
    rw [hbase] at hb
    rcases hout : body.bracket base m.result (m.fullName o) p.hooks with ⟨e | _, body'⟩
    · simp only [hout] at hb
      have ht : p.treat o m next = ⟨.error ⟨m.fullName o, e⟩, m, next⟩ := by
        simp only [treat, hs, hb]
      exact ht ▸ .unbracketed hs e (Body.ofBody_of_bracket hout)
    · simp only [hout] at hb
      have ht : p.treat o m next =
          ⟨.ok (.instrumented .bracketed), { m with body := some body' }, next⟩ := by
        simp only [treat, hs, hb]
      exact ht ▸ .bracketed hs base body body' hbase hbody hout

theorem correlate_handles (hs : p.shape o m = .async)
    (hfit : m.stepCount p.config.step.stepMethod = 1) (next : Int32) :
    p.Handles o m next (p.treat o m next) := by
  obtain ⟨machine, index, step, body, hm, hindex, hstep, -, hbody⟩ := exists_step hfit
  have hc : p.correlate o m next = _ := correlate_of_step hm hindex hstep hbody
  rcases hout : body.correlate next (m.fullName o) p.hooks p.config.step with ⟨e | exits, body'⟩
  · simp only [hout] at hc
    have ht : p.treat o m next = ⟨.error ⟨m.fullName o, e⟩, m, next + 1⟩ := by
      simp only [treat, hs, hc]
    exact ht ▸ .uncorrelated hs e (Body.ofBody_of_correlate hout)
  · simp only [hout] at hc
    have ht : p.treat o m next = ⟨.ok (.instrumented (.correlated next)),
        withStep m machine index step body', next + 1⟩ := by
      simp only [treat, hs, hc]
    exact ht ▸ .correlated hs machine index step body body' exits hm hindex hstep hbody hout

theorem isSome_body_of_isConcrete (h : m.isConcrete = true) : m.body.isSome = true := by
  simp only [MethodDecl.isConcrete, Bool.and_eq_true] at h
  exact h.1.2

theorem treat_handles {s : Site} (hs : p.config.Chooses s) (hfit : ¬p.config.Misfit s)
    (next : Int32) : p.Handles s.owner s.method next (p.treat s.owner s.method next) := by
  cases hshape : p.shape s.owner s.method with
  | generator =>
    have ht : p.treat s.owner s.method next = ⟨.ok (.skipped generatorReason), s.method, next⟩ := by
      simp only [treat, hshape]
    exact ht ▸ .skipped hshape
  | plain => exact bracket_handles hshape (isSome_body_of_isConcrete hs.2.2.2) next
  | async =>
    refine correlate_handles hshape (Decidable.byContradiction fun hne ↦ ?_) next
    exact hfit (misfit_iff.2 ⟨hshape, hne⟩)

theorem Handles.ofBody {done : Treated (Except MethodFailure Handling) MethodDecl}
    (h : p.Handles o m next done) {failure : MethodFailure} (he : done.answer = .error failure) :
    failure.cause.OfBody := by
  cases h with
  | unbracketed _ cause hc | uncorrelated _ cause hc => exact Except.error.inj he ▸ hc
  | skipped | bracketed | correlated => cases he

theorem run_of_obstacle {obstacle : Obstacle}
    (h : p.precheck module (p.config.select module) = .error obstacle) (next : Int32) :
    p.run module next = ⟨.error obstacle, module, next⟩ := by
  simp only [run, h]

/-- A batch that starts gives a report, and no method fails for something missing around its body. -/
theorem run_of_fits (h : ∀ s ∈ module.sites.filter p.config.Chooses, ¬p.config.Misfit s)
    (next : Int32) : ∃ report after next', p.run module next = ⟨.ok report, after, next'⟩ ∧
      p.Isolated module next (p.treatments module next) report after next' := by
  have hiso := p.treatAll_isolated module next
  simp only [run, precheck_eq_ok.2 h]
  exact ⟨_, _, _, rfl, hiso⟩

theorem Isolated.handles {ts : List Treatment} {report : Report} {after : ModuleDecl}
    {next' : Int32} (h : p.Isolated module next ts report after next')
    (hfit : ∀ s ∈ module.sites.filter p.config.Chooses, ¬p.config.Misfit s) :
    ∀ t ∈ ts, p.Handles t.site.owner t.site.method t.number t.done := by
  intro t ht
  have hs := h.chosen.subset (List.mem_map_of_mem ht)
  have hchosen : p.config.Chooses t.site := by simpa using (List.mem_filter.1 hs).2
  rw [(h.lawful t ht).alone]
  exact treat_handles hchosen (hfit _ hs) t.number

end Plan

theorem ModuleDecl.instrument_of_hooks (module : ModuleDecl) {tracer : TypeDecl} (config : Config)
    {hooks : Hooks} (h : tracer.hooks = .ok hooks) : module.instrument tracer config =
      match (Plan.mk hooks config).run module 0 with
      | ⟨.ok report, after, _⟩ => (.ok report, after)
      | ⟨.error obstacle, after, _⟩ =>
        (.error ⟨"Cannot instrument module " ++ module.name, obstacle⟩, after) := by
  have hplan : Plan.ofTracer tracer config = .ok ⟨hooks, config⟩ := by
    unfold Plan.ofTracer
    rw [h]
    rfl
  unfold instrument
  rw [hplan]
  dsimp only
  rcases (Plan.mk hooks config).run module 0 with ⟨_ | _, after, next⟩ <;> rfl

theorem ModuleDecl.instrument_cases (module : ModuleDecl) (tracer : TypeDecl) (config : Config) :
    (∃ before hook after, Hook.all = before ++ hook :: after ∧ (∀ h ∈ before, tracer.Offers h) ∧
        ¬tracer.Offers hook ∧ module.instrument tracer config =
          (.error ⟨"Failed to resolve tracer hooks",
            .missingHook tracer.type.full hook.signature⟩, module)) ∨
      (∀ hook, tracer.Offers hook) ∧
        let p : Plan := ⟨.on tracer.type, config⟩
        let chosen := module.sites.filter config.Chooses
        (∃ before s after, chosen = before ++ s :: after ∧ (∀ s' ∈ before, ¬config.Misfit s') ∧
          config.Misfit s ∧ module.instrument tracer config =
            (.error ⟨"Cannot instrument module " ++ module.name, p.complaint s⟩, module)) ∨
        (∀ s ∈ chosen, ¬config.Misfit s) ∧ ∃ report after next',
          p.run module 0 = ⟨.ok report, after, next'⟩ ∧
          p.Isolated module 0 (p.treatments module 0) report after next' ∧
          module.instrument tracer config = (.ok report, after) := by
  obtain ⟨hhooks, hall⟩ | ⟨before, hook, after, hsplit, hbefore, hlack, hhooks⟩ :=
    tracer.hooks_cases
  · refine .inr ⟨hall, ?_⟩
    have hrun := module.instrument_of_hooks config hhooks
    intro p chosen
    cases hpre : p.precheck module (config.select module) with
    | error obstacle =>
      obtain ⟨before, s, after, hsplit, hbefore, hs, rfl⟩ := Plan.exists_of_precheck hpre
      rw [Plan.run_of_obstacle hpre] at hrun
      exact .inl ⟨before, s, after, hsplit, hbefore, hs, hrun⟩
    | ok =>
      have hfit := Plan.precheck_eq_ok.1 hpre
      obtain ⟨report, after, next', hdone, hiso⟩ := Plan.run_of_fits hfit 0
      rw [hdone] at hrun
      exact .inr ⟨hfit, report, after, next', hdone, hiso, hrun⟩
  · refine .inl ⟨before, hook, after, hsplit, hbefore, hlack, ?_⟩
    simp only [instrument, Plan.ofTracer, hhooks]
    rfl

/-- What an abort says: the first hook that the tracer lacks, or if it has them all the first method
chosen that does not fit, with the number of its step methods. -/
def Obstacle.Names (module : ModuleDecl) (tracer : TypeDecl) (config : Config) : Obstacle → Prop
  | missingHook type signature =>
    ∃ before hook after, Hook.all = before ++ hook :: after ∧ (∀ h ∈ before, tracer.Offers h) ∧
      ¬tracer.Offers hook ∧ type = tracer.type.full ∧ signature = hook.signature
  | stepCount method name found =>
    (∀ hook, tracer.Offers hook) ∧ ∃ before s after,
      module.sites.filter config.Chooses = before ++ s :: after ∧
      (∀ s' ∈ before, ¬config.Misfit s') ∧ config.Misfit s ∧
      method = s.method.fullName s.owner ∧ name = config.step.stepMethod ∧
      found = s.method.stepCount name

/-- Instrumenting a module is refused exactly if the tracer lacks a hook or an asynchronous method
that is chosen does not have exactly one step method. Then the module stays as it was, and the abort
names the first thing that is wrong. Otherwise no method fails for want of a body, a state machine or
a step method. -/
theorem ModuleDecl.instrument_refuses_iff (module : ModuleDecl) (tracer : TypeDecl)
    (config : Config) :
    let done := module.instrument tracer config
    ((∃ abort, done.1 = .error abort) ↔ (∃ hook, ¬tracer.Offers hook) ∨
        ∃ s ∈ module.sites.filter config.Chooses, config.Misfit s) ∧
      (∀ abort, done.1 = .error abort →
        done.2 = module ∧ abort.obstacle.Names module tracer config) ∧
      ∀ report, done.1 = .ok report → ∀ failure ∈ report.failures,
        failure.cause ≠ .noBody ∧ failure.cause ≠ .noStateMachine ∧
          ∀ name found, failure.cause ≠ .stepCount name found := by
  intro done
  obtain ⟨before, hook, after, hsplit, hbefore, hlack, hdone⟩ | ⟨hall, ⟨before, s, after, hsplit,
    hbefore, hs, hdone⟩ | ⟨hfit, report, after, next', hrun, hiso, hdone⟩⟩ :=
    module.instrument_cases tracer config
  · simp only [done, hdone]
    refine ⟨⟨fun _ ↦ .inl ⟨hook, hlack⟩, fun _ ↦ ⟨_, rfl⟩⟩, fun abort ha ↦ ?_, nofun⟩
    obtain rfl := Except.error.inj ha
    exact ⟨trivial, before, hook, after, hsplit, hbefore, hlack, rfl, rfl⟩
  · simp only [done, hdone]
    have hmem : s ∈ module.sites.filter config.Chooses := by simp [hsplit]
    refine ⟨⟨fun _ ↦ .inr ⟨s, hmem, hs⟩, fun _ ↦ ⟨_, rfl⟩⟩, fun abort ha ↦ ?_, nofun⟩
    obtain rfl := Except.error.inj ha
    exact ⟨trivial, hall, before, s, after, hsplit, hbefore, hs, rfl, rfl, rfl⟩
  · simp only [done, hdone]
    refine ⟨⟨nofun, ?_⟩, nofun, fun report' hr failure hf ↦ ?_⟩
    · rintro (⟨hook, hlack⟩ | ⟨s, hs, hmisfit⟩)
      · exact absurd (hall hook) hlack
      · exact absurd hmisfit (hfit s hs)
    · obtain rfl := Except.ok.inj hr
      rw [hiso.failures] at hf
      obtain ⟨t, ht, he⟩ := List.mem_filterMap.1 hf
      have hanswer : t.done.answer = .error failure := by
        unfold Treatment.failure? at he
        split at he
        · cases he
        · rw [‹t.done.answer = _›, Option.some.inj he]
      have hbody := (hiso.handles hfit t ht).ofBody hanswer
      refine ⟨fun hc ↦ ?_, fun hc ↦ ?_, fun name found hc ↦ ?_⟩
      all_goals
        rw [hc] at hbody
        exact hbody

end CilSpan
