import CilSpan.Proofs.Batch.Preconditions
import CilSpan.Proofs.Span.Marked

namespace CilSpan

theorem StateMachine.candidates_congr {machine machine' : StateMachine MethodDecl} {name : String}
    (h : machine'.methods.map (fun d ↦ d.name = name && d.body.isSome) =
      machine.methods.map fun d ↦ d.name = name && d.body.isSome) :
    machine'.candidates name = machine.candidates name := by
  have hflags (machine : StateMachine MethodDecl) : machine.candidates name =
      ((machine.methods.map fun d ↦ d.name = name && d.body.isSome).zipIdx.filter Prod.fst).map
        Prod.snd := by
    rw [candidates, List.zipIdx_map, List.filter_map, List.map_map]
    rfl
  rw [hflags, h, hflags]

theorem StateMachine.candidates_set {machine : StateMachine MethodDecl} {name : String}
    {index : Nat} {step : MethodDecl} (hstep : machine.methods[index]? = some step)
    (hbody : step.body.isSome = true) (body : Body) :
    candidates { machine with
      methods := machine.methods.set index { step with body := some body } } name =
      machine.candidates name := by
  obtain ⟨hlt, rfl⟩ := List.getElem?_eq_some_iff.1 hstep
  refine candidates_congr (List.ext_getElem? fun n ↦ ?_)
  by_cases hn : index = n
  · subst hn
    simp [hlt, hbody]
  · simp [hn]

theorem MethodDecl.isEmptyConstructor_eq_false {m : MethodDecl} {b : Body} (hbody : m.body = some b)
    (h : b.effort ≠ 3) : m.isEmptyConstructor = false := by
  rw [isEmptyConstructor, hbody]
  exact Bool.and_eq_false_imp.2 fun _ ↦ decide_eq_false h

namespace ModuleDecl

variable {module after : ModuleDecl} {slot : Slot}

theorem method?_of_type {t : TypeDecl} {n : Nat} (h : module.types[n]? = some t) (k : Nat) :
    module.method? ⟨n, k⟩ = (t.methods[k]?).map fun m ↦ (t.toOwner, m) := by
  simp only [method?, h, Option.bind_eq_bind, Option.bind_some, Option.pure_def,
    Option.map_eq_bind, Function.comp_def]

theorem types_cases (h : after.types.map TypeDecl.toOwner = module.types.map TypeDecl.toOwner)
    (n : Nat) : (module.types[n]? = none ∧ after.types[n]? = none) ∨ ∃ t t',
      module.types[n]? = some t ∧ after.types[n]? = some t' ∧ t'.toOwner = t.toOwner := by
  have ho : (after.types[n]?).map TypeDecl.toOwner = (module.types[n]?).map TypeDecl.toOwner := by
    simpa using congrArg (·[n]?) h
  cases ht : module.types[n]? with
  | none =>
    rw [ht] at ho
    exact .inl ⟨rfl, Option.map_eq_none_iff.1 ho⟩
  | some t =>
    rw [ht] at ho
    obtain ⟨t', ht', ho⟩ := Option.map_eq_some_iff.1 ho
    exact .inr ⟨t, t', rfl, ht', ho⟩

theorem eq_of_slot {s s' : Site} (hs : s ∈ module.sites) (hs' : s' ∈ module.sites)
    (h : s.slot = s'.slot) : s = s' := by
  obtain ⟨slot, o, m⟩ := s
  obtain ⟨slot', o', m'⟩ := s'
  obtain rfl : slot = slot' := h
  have hm : module.method? slot = some (o, m) := mem_sites.1 hs
  have hm' : module.method? slot = some (o', m') := mem_sites.1 hs'
  obtain ⟨rfl, rfl⟩ := Prod.mk.inj (Option.some.inj (hm.symm.trans hm'))
  rfl

/-- Two modules in which each place holds the same are the same. -/
theorem eq_of_method? (hname : after.name = module.name)
    (howners : after.types.map TypeDecl.toOwner = module.types.map TypeDecl.toOwner)
    (h : ∀ slot, after.method? slot = module.method? slot) : after = module := by
  have htypes : after.types = module.types := by
    refine List.ext_getElem? fun n ↦ ?_
    obtain ⟨ht, ht'⟩ | ⟨t, t', ht, ht', ho⟩ := types_cases howners n
    · rw [ht, ht']
    have hmethods : t'.methods = t.methods := by
      refine List.ext_getElem? fun k ↦ ?_
      have hk := h ⟨n, k⟩
      rw [method?_of_type ht, method?_of_type ht', ho] at hk
      exact Option.map_injective (fun _ _ he ↦ (Prod.mk.inj he).2) hk
    obtain ⟨owner, methods⟩ := t
    obtain ⟨owner', methods'⟩ := t'
    obtain rfl : owner' = owner := ho
    obtain rfl : methods' = methods := hmethods
    rw [ht, ht']
  cases after
  cases module
  exact congr (congrArg mk hname) htypes

section

variable {f : Site → Site} (hf : ∀ s, (f s).slot = s.slot)
  (hsome : ∀ s ∈ module.sites, after.method? s.slot = some ((f s).owner, (f s).method))
  (hnone : ∀ slot, module.method? slot = none → after.method? slot = none)

include hf hsome hnone

theorem sites_of_type {t t' : TypeDecl} {n : Nat} (ht : module.types[n]? = some t)
    (ht' : after.types[n]? = some t') : t'.sites n = (t.sites n).map f := by
  refine List.ext_getElem? fun k ↦ ?_
  simp only [TypeDecl.sites, List.map_map, List.getElem?_map, List.getElem?_zipIdx, Nat.zero_add]
  have hk := method?_of_type ht k
  have hk' := method?_of_type ht' k
  cases hm : t.methods[k]? with
  | none =>
    rw [hm] at hk
    rw [hnone _ hk] at hk'
    rw [Option.map_eq_none_iff.1 hk'.symm]
    rfl
  | some m =>
    rw [hm] at hk
    have hs := hsome ⟨⟨n, k⟩, t.toOwner, m⟩ (mem_sites.2 hk)
    rw [hk'] at hs
    obtain ⟨m', hm', he⟩ := Option.map_eq_some_iff.1 hs
    obtain ⟨howner, hmethod⟩ := Prod.mk.inj he
    rw [hm']
    have hslot := (hf ⟨⟨n, k⟩, t.toOwner, m⟩).symm
    exact congrArg some (congr (congr (congrArg Site.mk hslot) howner) hmethod)

theorem sites_eq_map
    (howners : after.types.map TypeDecl.toOwner = module.types.map TypeDecl.toOwner) :
    after.sites = module.sites.map f := by
  rw [sites, sites, List.map_flatMap, List.flatMap_def, List.flatMap_def]
  refine congrArg _ (List.ext_getElem? fun n ↦ ?_)
  simp only [List.getElem?_map, List.getElem?_zipIdx, Nat.zero_add]
  obtain ⟨ht, ht'⟩ | ⟨t, t', ht, ht', -⟩ := types_cases howners n
  · rw [ht, ht']
    rfl
  · rw [ht, ht']
    exact congrArg some (sites_of_type hf hsome hnone ht ht')

end

end ModuleDecl

def Treatment.outcome (t : Treatment) : Site := { t.site with method := t.done.thing }

namespace Plan

variable {p : Plan} {module after : ModuleDecl} {next next' : Int32} {report : Report}
  {t : Treatment} {ts : List Treatment}

def again (p : Plan) (t : Treatment) : Treatment :=
  ⟨t.outcome, t.number, p.treat t.site.owner t.done.thing t.number⟩

namespace Handles

variable {o : Owner} {m : MethodDecl} {done : Treated (Except MethodFailure Handling) MethodDecl}
  (h : p.Handles o m next done)

include h

theorem name_eq : done.thing.name = m.name := by
  cases h <;> rfl

theorem shape_eq : p.shape o done.thing = p.shape o m := by
  cases h <;> rfl

theorem isConcrete (hm : m.isConcrete = true) : done.thing.isConcrete = true := by
  cases h with
  | skipped | unbracketed | uncorrelated | correlated => exact hm
  | bracketed hs base body body' hbase hbody hout =>
    -- A constructor counts as empty if exactly three instructions do something.
    have heffort : body'.effort ≠ 3 := Nat.ne_of_gt (bracket_marks hout).2
    have hempty := MethodDecl.isEmptyConstructor_eq_false
      (m := { m with body := some body' }) rfl heffort
    simp only [MethodDecl.isConcrete, Bool.and_eq_true, Bool.not_eq_true'] at hm ⊢
    exact ⟨⟨hm.1.1, rfl⟩, hempty⟩

theorem stepCount_eq :
    done.thing.stepCount p.config.step.stepMethod = m.stepCount p.config.step.stepMethod := by
  cases h with
  | skipped | unbracketed | uncorrelated | bracketed => rfl
  | correlated hs machine index step body body' exits hm hindex hstep hbody hout =>
    rw [MethodDecl.stepCount_of_machine rfl, MethodDecl.stepCount_of_machine hm,
      StateMachine.candidates_set hstep (by rw [hbody]; rfl)]

end Handles

section

variable {o : Owner} {m : MethodDecl} {body body' : Body}

/-- A bracketed method is refused when it comes again, and stays as it is. -/
theorem treat_bracketed {base : Option TypeName} (hs : p.shape o m = .plain)
    (hbase : chained o m = .ok base)
    (hout : body.bracket base m.result (m.fullName o) p.hooks = (.ok (), body')) (next : Int32) :
    ∃ callee ∈ p.hooks.all, p.treat o { m with body := some body' } next =
      ⟨.error ⟨m.fullName o, .alreadyHooked callee.name⟩, { m with body := some body' }, next⟩ := by
  obtain ⟨⟨callee, hcallee⟩, -⟩ := bracket_marks hout
  let m' : MethodDecl := { m with body := some body' }
  have hbracket : p.bracket o m' = .error (.alreadyHooked callee.name) := by
    rw [bracket_of_body rfl, show chained o m' = .ok base from hbase]
    simp only [Body.bracket_of_hooked? hcallee]
  refine ⟨callee, List.mem_of_find?_eq_some hcallee, ?_⟩
  simp only [treat, show p.shape o m' = .plain from hs, m', hbracket]
  rfl

theorem treat_correlated {machine : StateMachine MethodDecl} {index : Nat} {step : MethodDecl}
    {exits : Exits} {number : Int32} (hs : p.shape o m = .async)
    (hindex : machine.candidates p.config.step.stepMethod = [index])
    (hstep : machine.methods[index]? = some step) (hbody : step.body = some body)
    (hout : body.correlate number (m.fullName o) p.hooks p.config.step = (.ok exits, body'))
    (next : Int32) :
    ∃ callee ∈ p.hooks.all, p.treat o (withStep m machine index step body') next =
      ⟨.error ⟨m.fullName o, .alreadyHooked callee.name⟩, withStep m machine index step body',
        next + 1⟩ := by
  obtain ⟨-, ⟨callee, hcallee⟩, -⟩ := correlate_marks hout
  let m' := withStep m machine index step body'
  have hindex' := (StateMachine.candidates_set hstep (by rw [hbody]; rfl) body').trans hindex
  have hlt := (List.getElem?_eq_some_iff.1 hstep).1
  have hcorrelate : p.correlate o m' next =
      ⟨.error (.alreadyHooked callee.name), m', next + 1⟩ := by
    rw [correlate_of_step (p := p) (m := m') rfl hindex' (List.getElem?_set_self hlt) rfl]
    simp only [Body.correlate_of_hooked? hcallee]
  refine ⟨callee, List.mem_of_find?_eq_some hcallee, ?_⟩
  simp only [treat, show p.shape o m' = .async from hs, m', hcorrelate]
  rfl

end

structure Settles (p : Plan) (t : Treatment) : Prop where
  thing : (p.again t).done.thing = t.done.thing
  next : (p.again t).done.next = t.done.next
  fullName : (p.again t).fullName = t.fullName
  kept : t.fate.isInstrumented = false → (p.again t).done = t.done
  refused : t.fate.isInstrumented = true → ∃ callee ∈ p.hooks.all,
    (p.again t).done.answer = .error ⟨t.fullName, .alreadyHooked callee.name⟩

theorem Settles.of_kept (ht : t.Lawful p) (hthing : t.done.thing = t.site.method)
    (hfate : t.fate.isInstrumented = false) : p.Settles t := by
  have hagain : (p.again t).done = t.done := by rw [again, hthing, ← ht.alone]
  have hname : (p.again t).fullName = t.fullName :=
    congrArg (MethodDecl.fullName · t.site.owner) hthing
  exact ⟨by rw [hagain], by rw [hagain], hname, fun _ ↦ hagain, by simp [hfate]⟩

theorem Settles.of_refused (hname : t.done.thing.fullName t.site.owner = t.fullName)
    (hfate : t.fate.isInstrumented = true)
    (h : ∃ callee ∈ p.hooks.all, (p.again t).done =
      ⟨.error ⟨t.fullName, .alreadyHooked callee.name⟩, t.done.thing, t.done.next⟩) :
    p.Settles t := by
  obtain ⟨callee, hcallee, hagain⟩ := h
  exact ⟨by rw [hagain], by rw [hagain], hname, by simp [hfate],
    fun _ ↦ ⟨callee, hcallee, by rw [hagain]⟩⟩

theorem Handles.settles (ht : t.Lawful p)
    (h : p.Handles t.site.owner t.site.method t.number t.done) : p.Settles t := by
  obtain ⟨⟨slot, o, m⟩, number, done⟩ := t
  dsimp only at h
  cases h with
  | skipped | unbracketed | uncorrelated => exact .of_kept ht rfl rfl
  | bracketed hs base body body' hbase hbody hout =>
    exact .of_refused rfl rfl (treat_bracketed hs hbase hout number)
  | correlated hs machine index step body body' exits hm hindex hstep hbody hout =>
    exact .of_refused rfl rfl (treat_correlated hs hindex hstep hbody hout number)

theorem Handles.misfit_iff (h : p.Handles t.site.owner t.site.method t.number t.done) :
    p.config.Misfit t.outcome ↔ p.config.Misfit t.site := by
  rw [Plan.misfit_iff, Plan.misfit_iff, ← h.shape_eq, ← h.stepCount_eq]
  rfl

theorem Handles.chooses (h : p.Handles t.site.owner t.site.method t.number t.done)
    (ht : p.config.Chooses t.site) : p.config.Chooses t.outcome := by
  obtain ⟨hspace, htype, hmethod, hconcrete⟩ := ht
  exact ⟨hspace, htype, h.name_eq.symm ▸ hmethod, h.isConcrete hconcrete⟩

end Plan

def Site.within (s : Site) (module : ModuleDecl) : Site :=
  match module.method? s.slot with
  | some (_, m) => { s with method := m }
  | none => s

namespace Plan

variable {p : Plan} {module after : ModuleDecl} {next next' : Int32} {report : Report}
  {t : Treatment} {ts : List Treatment} {s : Site}

theorem slot_within (s : Site) (module : ModuleDecl) : (s.within module).slot = s.slot := by
  unfold Site.within
  split <;> rfl

theorem within_of_method? {o : Owner} {m : MethodDecl} (h : module.method? s.slot = some (o, m)) :
    s.within module = { s with method := m } := by
  unfold Site.within
  rw [h]

namespace Isolated

variable (h : p.Isolated module next ts report after next')

include h

theorem chosen_of_mem (ht : t ∈ ts) : t.site ∈ module.sites ∧ p.config.Chooses t.site := by
  simpa using h.chosen.subset (List.mem_map_of_mem ht)

theorem within_of_mem (ht : t ∈ ts) : t.site.within after = t.outcome :=
  within_of_method? (h.treated t ht)

theorem treated_or_kept (hs : s ∈ module.sites) :
    (∃ t ∈ ts, t.site = s) ∨ after.method? s.slot = some (s.owner, s.method) := by
  by_cases ht : ∃ t ∈ ts, t.site.slot = s.slot
  · obtain ⟨t, ht, hslot⟩ := ht
    exact .inl ⟨t, ht, ModuleDecl.eq_of_slot (h.chosen_of_mem ht).1 hs hslot⟩
  · refine .inr ((h.untouched _ fun t hmem he ↦ ht ⟨t, hmem, he⟩).trans ?_)
    exact ModuleDecl.mem_sites.1 hs

theorem sites_eq : after.sites = module.sites.map fun s ↦ s.within after := by
  refine ModuleDecl.sites_eq_map (slot_within · after) (fun s hs ↦ ?_) (fun slot hslot ↦ ?_) h.owners
  · obtain ⟨t, ht, rfl⟩ | hkept := h.treated_or_kept hs
    · rw [h.within_of_mem ht]
      exact h.treated t ht
    · rw [within_of_method? hkept]
      exact hkept
  · refine (h.untouched slot fun t ht he ↦ ?_).trans hslot
    have hsite := ModuleDecl.mem_sites.1 (h.chosen_of_mem ht).1
    rw [he, hslot] at hsite
    cases hsite

variable (hhandles : ∀ t ∈ ts, p.Handles t.site.owner t.site.method t.number t.done)

include hhandles

/-- The same methods are chosen when the batch comes again. -/
theorem filter_sites : after.sites.filter p.config.Chooses =
    (module.sites.filter p.config.Chooses).map fun s ↦ s.within after := by
  rw [h.sites_eq, List.filter_map]
  refine congrArg _ (List.filter_congr fun s hs ↦ decide_eq_decide.2 ?_)
  dsimp only [Function.comp_apply]
  obtain ⟨t, ht, rfl⟩ | hkept := h.treated_or_kept hs
  · have hchosen := (h.chosen_of_mem ht).2
    rw [h.within_of_mem ht]
    exact iff_of_true ((hhandles t ht).chooses hchosen) hchosen
  · rw [within_of_method? hkept]

theorem select_eq : p.config.select after = p.config.select module := by
  rw [Config.select_eq, Config.select_eq, h.filter_sites hhandles, List.map_map]
  exact List.map_congr_left fun s _ ↦ slot_within s after

theorem fits_again (hfit : ∀ s ∈ module.sites.filter p.config.Chooses, ¬p.config.Misfit s) :
    ∀ s ∈ after.sites.filter p.config.Chooses, ¬p.config.Misfit s := by
  intro s' hs'
  rw [h.filter_sites hhandles] at hs'
  obtain ⟨s, hs, rfl⟩ := List.mem_map.1 hs'
  have hold := hfit s hs
  obtain ⟨t, ht, rfl⟩ | hkept := h.treated_or_kept (List.mem_filter.1 hs).1
  · rw [h.within_of_mem ht, (hhandles t ht).misfit_iff]
    exact hold
  · rw [within_of_method? hkept]
    exact hold

end Isolated

def stops (p : Plan) (t : Treatment) : Bool := p.config.failFast && t.failed

theorem Settles.stops_again (h : p.Settles t) (ht : p.stops t = true) : p.stops (p.again t) = true := by
  obtain ⟨hff, hfailed⟩ := Bool.and_eq_true_iff.1 ht
  have hfate : t.fate.isInstrumented = false := by
    unfold Treatment.fate
    cases ha : t.done.answer with
    | error failure => rfl
    | ok handling => simp [Treatment.failed, ha, Except.isOk, Except.toBool] at hfailed
  rw [stops, hff, Treatment.failed, h.kept hfate]
  exact hfailed

/-- The second batch goes through the treatments of the first and ends no later. -/
theorem through_again {rest : List Site}
    (hnumber : ∀ k t, ts[k]? = some t →
      t.number = (ts.take k).foldl (fun _ t ↦ t.done.next) next)
    (hsettles : ∀ t ∈ ts, p.Settles t)
    (hrest : rest ≠ [] → ∃ t, ts.getLast? = some t ∧ p.stops t = true) :
    through p.stops (p.apart next (ts.map Treatment.outcome ++ rest)) =
      through p.stops (ts.map p.again) := by
  induction ts generalizing next with
  | nil =>
    obtain rfl : rest = [] := by
      by_contra hne
      obtain ⟨t, ht, -⟩ := hrest hne
      cases ht
    rfl
  | cons t ts ih =>
    obtain ⟨ht, hts⟩ := List.forall_mem_cons.1 hsettles
    obtain rfl : t.number = next := hnumber 0 t rfl
    change p.again t :: (if p.stops (p.again t) then [] else through p.stops
        (p.apart (p.again t).done.next (ts.map Treatment.outcome ++ rest))) =
      p.again t :: if p.stops (p.again t) then [] else through p.stops (ts.map p.again)
    rw [ht.next]
    cases hstop : p.stops (p.again t) with
    | true => rfl
    | false =>
      refine congrArg (p.again t :: ·) (ih (fun k u hu ↦ hnumber (k + 1) u hu) hts fun hne ↦ ?_)
      obtain ⟨u, hu, hstops⟩ := hrest hne
      rw [List.getLast?_cons] at hu
      cases hl : ts.getLast? with
      | none =>
        rw [hl] at hu
        obtain rfl : t = u := Option.some.inj hu
        rw [ht.stops_again hstops] at hstop
        cases hstop
      | some v =>
        rw [hl] at hu
        obtain rfl : v = u := Option.some.inj hu
        exact ⟨v, rfl, hstops⟩

theorem Isolated.treatments_again (h : p.Isolated module next ts report after next')
    (hhandles : ∀ t ∈ ts, p.Handles t.site.owner t.site.method t.number t.done) :
    p.treatments after next = through p.stops (ts.map p.again) := by
  obtain ⟨rest, hrest⟩ := h.chosen
  have hchosen : after.sites.filter p.config.Chooses =
      ts.map Treatment.outcome ++ rest.map fun s ↦ s.within after := by
    rw [h.filter_sites hhandles, ← hrest, List.map_append, List.map_map]
    exact congrArg (· ++ _) (List.map_congr_left fun t ht ↦ h.within_of_mem ht)
  rw [treatments, hchosen]
  refine through_again h.numbers (fun t ht ↦ (hhandles t ht).settles (h.lawful t ht)) fun hne ↦ ?_
  -- What the first batch left out came behind the failure that ended it.
  by_contra hcut
  have hall := h.all fun hff t ht ↦ Bool.eq_false_iff.2 fun hfailed ↦
    hcut ⟨t, h.cut hff t ht hfailed, by rw [stops, hff, hfailed]; rfl⟩
  rw [← hrest, List.self_eq_append_right] at hall
  exact hne (by rw [hall]; rfl)

/-- The second batch leaves the module as it is. -/
theorem Isolated.run_again (h : p.Isolated module next ts report after next')
    (hhandles : ∀ t ∈ ts, p.Handles t.site.owner t.site.method t.number t.done)
    (hfit : ∀ s ∈ module.sites.filter p.config.Chooses, ¬p.config.Misfit s) :
    ∃ again next'', p.run after next = ⟨.ok again, after, next''⟩ ∧
      p.Isolated after next (through p.stops (ts.map p.again)) again after next'' := by
  obtain ⟨again, after', next'', hrun, hiso⟩ := run_of_fits (h.fits_again hhandles hfit) next
  rw [h.treatments_again hhandles] at hiso
  have hfront := through_prefix p.stops (ts.map p.again)
  have hsame : after' = after := by
    refine ModuleDecl.eq_of_method? hiso.name.1 hiso.owners fun slot ↦ ?_
    by_cases hslot : ∃ u ∈ through p.stops (ts.map p.again), u.site.slot = slot
    · obtain ⟨u, hu, rfl⟩ := hslot
      obtain ⟨t, ht, rfl⟩ := List.mem_map.1 (hfront.subset hu)
      rw [hiso.treated _ hu, ((hhandles t ht).settles (h.lawful t ht)).thing]
      exact (h.treated t ht).symm
    · exact hiso.untouched slot fun u hu he ↦ hslot ⟨u, hu, he⟩
  subst hsame
  exact ⟨again, next'', hrun, hiso⟩

def Echoes (p : Plan) (failures : List MethodFailure) (first second : Entry) : Prop :=
  if first.fate.isInstrumented then
    ∃ hook : Hook, ∃ failure ∈ failures,
      failure = ⟨first.method, .alreadyHooked (p.hooks.get hook).name⟩ ∧
        second = ⟨first.method, .failed failure.message⟩
  else second = first

theorem Settles.echoes (h : p.Settles t) {failures : List MethodFailure}
    (hfailures : ∀ failure, (p.again t).failure? = some failure → failure ∈ failures) :
    p.Echoes failures t.entry (p.again t).entry := by
  unfold Echoes
  split
  · rename_i hfate
    obtain ⟨callee, hc, hanswer⟩ := h.refused hfate
    obtain ⟨hook, -, rfl⟩ := List.mem_map.1 hc
    refine ⟨hook, _, hfailures _ (by rw [Treatment.failure?, hanswer]; rfl), rfl, ?_⟩
    rw [Treatment.entry, Treatment.fate, h.fullName, hanswer]
    rfl
  · rename_i hfate
    rw [Treatment.entry, Treatment.fate, h.fullName, h.kept (Bool.eq_false_iff.2 hfate)]
    rfl

theorem echoes_of_prefix {us : List Treatment} (hus : us <+: ts.map p.again)
    (hsettles : ∀ t ∈ ts, p.Settles t) {k : Nat} {first second : Entry}
    (hfirst : (ts.map Treatment.entry)[k]? = some first)
    (hsecond : (us.map Treatment.entry)[k]? = some second) :
    p.Echoes (us.filterMap Treatment.failure?) first second := by
  rw [List.getElem?_map] at hfirst hsecond
  obtain ⟨t, ht, rfl⟩ := Option.map_eq_some_iff.1 hfirst
  obtain ⟨u, hu, rfl⟩ := Option.map_eq_some_iff.1 hsecond
  obtain rfl : p.again t = u := by
    obtain ⟨rest, hrest⟩ := hus
    have hget := congrArg (·[k]?) hrest
    have hlt := (List.getElem?_eq_some_iff.1 hu).1
    simpa [List.getElem?_append_left hlt, hu, ht] using hget.symm
  exact (hsettles t (List.mem_of_getElem? ht)).echoes fun failure hf ↦
    List.mem_filterMap.2 ⟨_, List.mem_of_getElem? hu, hf⟩

theorem Echoes.not_instrumented {failures : List MethodFailure} {first second : Entry}
    (h : p.Echoes failures first second) : second.fate.isInstrumented = false := by
  unfold Echoes at h
  split at h
  · obtain ⟨-, -, -, -, rfl⟩ := h
    rfl
  · rename_i hfate
    exact h ▸ Bool.eq_false_iff.2 hfate

end Plan

def Report.Along (report : Report) (module : ModuleDecl) (config : Config) : Prop :=
  report.entries.map Entry.method <+:
    (module.sites.filter config.Chooses).map fun s ↦ s.method.fullName s.owner

theorem Plan.Isolated.along {p : Plan} {module after : ModuleDecl} {next next' : Int32}
    {ts : List Treatment} {report : Report} (h : p.Isolated module next ts report after next') :
    report.Along module p.config := by
  have hnames := h.chosen.map fun s ↦ s.method.fullName s.owner
  rw [List.map_map] at hnames
  rw [Report.Along, h.entries, List.map_map]
  exact hnames

/-- Instrumenting a module a second time gives a report again and leaves the module as it is. The same
methods are chosen, and as far as the second report goes it says of each what the first said, only that
those which were instrumented are refused now because they call a hook already. -/
theorem ModuleDecl.instrument_again {module after : ModuleDecl} {tracer : TypeDecl}
    {config : Config} {report : Report}
    (h : module.instrument tracer config = (.ok report, after)) :
    ∃ again, after.instrument tracer config = (.ok again, after) ∧
      config.select after = config.select module ∧
      report.Along module config ∧ again.Along after config ∧
      again.entries.length ≤ report.entries.length ∧
      (config.failFast = false → again.entries.length = report.entries.length) ∧
      (∀ e ∈ again.entries, e.fate.isInstrumented = false) ∧
      ∀ (k : Nat) (first second : Entry), report.entries[k]? = some first →
        again.entries[k]? = some second →
        Plan.Echoes ⟨.on tracer.type, config⟩ again.failures first second := by
  obtain ⟨_, _, _, -, -, -, hdone⟩ | ⟨hall, ⟨_, _, _, -, -, -, hdone⟩ | ⟨hfit, report', after', next',
    -, hiso, hdone⟩⟩ := module.instrument_cases tracer config
  · rw [h] at hdone
    cases hdone
  · rw [h] at hdone
    cases hdone
  obtain ⟨hreport, rfl⟩ := Prod.mk.inj (h.symm.trans hdone)
  obtain rfl := Except.ok.inj hreport
  have hhandles := hiso.handles hfit
  obtain ⟨again, next'', hrun, hiso'⟩ := hiso.run_again hhandles hfit
  have hagain := after.instrument_of_hooks config (TypeDecl.hooks_of_offers hall)
  rw [hrun] at hagain
  set p : Plan := ⟨.on tracer.type, config⟩
  have hfront := through_prefix p.stops ((p.treatments module 0).map p.again)
  have hlength : again.entries.length ≤ report.entries.length := by
    rw [hiso.entries, hiso'.entries, List.length_map, List.length_map]
    simpa using hfront.length_le
  have hechoes : ∀ (k : Nat) (first second : Entry), report.entries[k]? = some first →
      again.entries[k]? = some second → p.Echoes again.failures first second := by
    rw [hiso.entries, hiso'.entries, hiso'.failures]
    exact fun k first second ↦ Plan.echoes_of_prefix hfront
      fun t ht ↦ (hhandles t ht).settles (hiso.lawful t ht)
  refine ⟨again, hagain, hiso.select_eq hhandles, hiso.along, hiso'.along, hlength, fun hff ↦ ?_,
    fun e he ↦ ?_, hechoes⟩
  · have hall : through p.stops ((p.treatments module 0).map p.again) =
        (p.treatments module 0).map p.again :=
      through_eq_self fun u _ ↦ by rw [Plan.stops, hff, Bool.false_and]
    rw [hiso.entries, hiso'.entries, hall, List.map_map, List.length_map, List.length_map]
  · obtain ⟨k, hk⟩ := List.getElem?_of_mem he
    have hlt : k < report.entries.length :=
      (List.getElem?_eq_some_iff.1 hk).1.trans_le hlength
    exact (hechoes k _ e (List.getElem?_eq_getElem hlt) hk).not_instrumented

def TypeDecl.appTracer : TypeDecl where
  space := "App"
  name := "Tracer"
  base := none
  nested := []
  methods := Hook.all.map fun hook ↦
    { Plan.mixedJobs.work with
      name := hook.name, params := hook.params, result := .void, isStatic := true }

theorem ModuleDecl.instrument_again_mixedJobs :
    let jobs : Config := .ofLists [] ["Jobs"] []
    ∃ report after again,
      Plan.mixedJobs.instrument .appTracer jobs = (.ok report, after) ∧
      after.instrument .appTracer jobs = (.ok again, after) ∧
      report.entries.map (fun e ↦ e.fate.isInstrumented) = [true, false, false, true] ∧
      again.entries.map (fun e ↦ e.fate.isFailed) = [true, true, false, true] := by
  intro jobs
  rcases hdone : Plan.mixedJobs.instrument .appTracer jobs with ⟨_ | report, after⟩
  · have hok : (Plan.mixedJobs.instrument .appTracer jobs).1.isOk = true := by decide +kernel
    rw [hdone] at hok
    cases hok
  have hreport : (Plan.mixedJobs.instrument .appTracer jobs).1.toOption.map (fun r ↦
      r.entries.map fun e ↦ e.fate.isInstrumented) = some [true, false, false, true] := by
    decide +kernel
  have hfailed : ((Plan.mixedJobs.instrument .appTracer jobs).2.instrument .appTracer jobs).1.toOption.map
      (fun r ↦ r.entries.map fun e ↦ e.fate.isFailed) = some [true, true, false, true] := by
    decide +kernel
  obtain ⟨again, hagain, -⟩ := instrument_again hdone
  rw [hdone] at hreport hfailed
  rw [hagain] at hfailed
  exact ⟨report, after, again, rfl, hagain, Option.some.inj hreport, Option.some.inj hfailed⟩

end CilSpan
