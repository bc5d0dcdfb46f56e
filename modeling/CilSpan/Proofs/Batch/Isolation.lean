import CilSpan.Batch.Plan
import Mathlib.Data.List.Nodup

namespace CilSpan

structure Site where
  slot : Slot
  owner : Owner
  method : MethodDecl

def TypeDecl.sites (t : TypeDecl) (type : Nat) : List Site :=
  t.methods.zipIdx.map fun (m, method) ↦ ⟨⟨type, method⟩, t.toOwner, m⟩

namespace ModuleDecl

def sites (module : ModuleDecl) : List Site :=
  module.types.zipIdx.flatMap fun (t, type) ↦ t.sites type

variable {module : ModuleDecl} {slot slot' : Slot} {s : Site} {m : MethodDecl}

theorem method?_eq_some {o : Owner} : module.method? slot = some (o, m) ↔
    ∃ t, module.types[slot.type]? = some t ∧ t.methods[slot.method]? = some m ∧ t.toOwner = o := by
  simp only [method?, Option.bind_eq_bind, Option.bind_eq_some_iff, Option.pure_def,
    Option.some_inj, Prod.mk.injEq]
  constructor
  · rintro ⟨t, ht, m', hm, rfl, rfl⟩
    exact ⟨t, ht, hm, rfl⟩
  · rintro ⟨t, ht, hm, rfl⟩
    exact ⟨t, ht, m, hm, rfl, rfl⟩

theorem mem_sites : s ∈ module.sites ↔ module.method? s.slot = some (s.owner, s.method) := by
  obtain ⟨⟨type, method⟩, o, m⟩ := s
  rw [method?_eq_some]
  simp only [sites, TypeDecl.sites, List.mem_flatMap, List.mem_map, Prod.exists,
    List.mk_mem_zipIdx_iff_getElem?]
  constructor
  · rintro ⟨t, n, ht, m', k, hm, he⟩
    obtain ⟨hslot, rfl, rfl⟩ := Site.mk.inj he
    obtain ⟨rfl, rfl⟩ := Slot.mk.inj hslot
    exact ⟨t, ht, hm, rfl⟩
  · rintro ⟨t, ht, hm, rfl⟩
    exact ⟨t, type, ht, m, method, hm, rfl⟩

theorem map_slot_sites (t : TypeDecl) (type : Nat) :
    (t.sites type).map Site.slot = (List.range t.methods.length).map (Slot.mk type) := by
  rw [TypeDecl.sites, List.map_map, List.range_eq_range', ← List.zipIdx_map_snd 0 t.methods,
    List.map_map]
  rfl

theorem nodup_sites (module : ModuleDecl) : (module.sites.map Site.slot).Nodup := by
  have hn : (module.types.zipIdx.map Prod.snd).Nodup := by
    rw [List.zipIdx_map_snd]
    exact List.nodup_range'
  rw [sites, List.map_flatMap, List.nodup_flatMap]
  refine ⟨fun x _ ↦ ?_, (List.pairwise_map.1 hn).imp fun {x y} hne ↦ ?_⟩
  · rw [map_slot_sites]
    exact List.nodup_range.map fun a b h ↦ (Slot.mk.inj h).2
  · intro slot hx hy
    dsimp only at hx hy
    rw [map_slot_sites] at hx hy
    obtain ⟨a, -, rfl⟩ := List.mem_map.1 hx
    obtain ⟨b, -, he⟩ := List.mem_map.1 hy
    exact hne (Slot.mk.inj he).1.symm

theorem types_setMethod (module : ModuleDecl) (slot : Slot) (m : MethodDecl) :
    (module.setMethod slot m).types.map TypeDecl.toOwner = module.types.map TypeDecl.toOwner := by
  apply List.ext_getElem?
  intro n
  by_cases hn : slot.type = n <;> cases h : module.types[n]? <;>
    simp [setMethod, hn, h]

theorem method?_setMethod_self {o : Owner} {old : MethodDecl}
    (h : module.method? slot = some (o, old)) :
    (module.setMethod slot m).method? slot = some (o, m) := by
  obtain ⟨t, ht, hm, rfl⟩ := method?_eq_some.1 h
  have hlt : slot.method < t.methods.length := (List.getElem?_eq_some_iff.1 hm).1
  refine method?_eq_some.2 ⟨{ t with methods := t.methods.set slot.method m }, ?_, ?_, rfl⟩
  · simp [setMethod, ht]
  · simp [hlt]

theorem method?_setMethod_of_ne (hne : slot ≠ slot') :
    (module.setMethod slot m).method? slot' = module.method? slot' := by
  obtain ⟨type, method⟩ := slot
  obtain ⟨type', method'⟩ := slot'
  by_cases ht : type = type'
  · subst ht
    have hm : method ≠ method' := fun he ↦ hne (he ▸ rfl)
    cases h : module.types[type]? <;> simp [method?, setMethod, h, hm]
  · simp [method?, setMethod, ht]

end ModuleDecl

namespace Config

def Admits (names : List String) (name : String) : Prop := names = [] ∨ name ∈ names

instance (names : List String) (name : String) : Decidable (Admits names name) :=
  inferInstanceAs (Decidable (_ ∨ _))

theorem passes_iff {names : List String} {name : String} :
    passes names name = true ↔ Admits names name := by
  simp only [passes, Admits, Bool.or_eq_true, List.isEmpty_iff, List.contains_eq_mem,
    decide_eq_true_eq]

def Chooses (c : Config) (s : Site) : Prop :=
  Admits c.namespaces s.owner.space ∧ Admits c.types s.owner.name ∧
    Admits c.methods s.method.name ∧ s.method.isConcrete = true

instance (c : Config) : DecidablePred c.Chooses := fun _ ↦ inferInstanceAs (Decidable (_ ∧ _))

theorem select_eq (c : Config) (module : ModuleDecl) :
    c.select module = (module.sites.filter c.Chooses).map Site.slot := by
  rw [select, ModuleDecl.sites, List.filter_flatMap, List.map_flatMap]
  congr 1
  funext ⟨t, type⟩
  have hchoose (m : MethodDecl) (method : Nat) :
      decide (c.Chooses ⟨⟨type, method⟩, t.toOwner, m⟩) =
        (c.includesType t && c.includesMethod m) := by
    rw [Bool.eq_iff_iff, decide_eq_true_eq]
    simp only [Chooses, includesType, includesMethod, Bool.and_eq_true, passes_iff, and_assoc,
      and_comm (a := m.isConcrete = true)]
  simp only [TypeDecl.sites, List.filter_map, List.map_map, Function.comp_def, hchoose]
  cases c.includesType t <;> simp

/-- The same names to pass, in whatever order and however often, and the same rules. -/
structure Agrees (c c' : Config) : Prop where
  namespaces : ∀ name, name ∈ c'.namespaces ↔ name ∈ c.namespaces
  types : ∀ name, name ∈ c'.types ↔ name ∈ c.types
  methods : ∀ name, name ∈ c'.methods ↔ name ∈ c.methods
  failFast : c'.failFast = c.failFast
  step : c'.step = c.step

theorem admits_congr {names names' : List String} (h : ∀ name, name ∈ names' ↔ name ∈ names)
    (name : String) : Admits names' name ↔ Admits names name := by
  simp only [Admits, List.eq_nil_iff_forall_not_mem, h]

theorem Agrees.select_eq {c c' : Config} (h : c.Agrees c') (module : ModuleDecl) :
    c'.select module = c.select module := by
  rw [Config.select_eq, Config.select_eq]
  refine congrArg _ (List.filter_congr fun s _ ↦ decide_eq_decide.2 ?_)
  simp only [Chooses, admits_congr h.namespaces, admits_congr h.types, admits_congr h.methods]

end Config

structure Treatment where
  site : Site
  number : Int32
  done : Treated (Except MethodFailure Handling) MethodDecl

namespace Treatment

def fullName (t : Treatment) : String := t.site.method.fullName t.site.owner

def failed (t : Treatment) : Bool := !t.done.answer.isOk

def failure? (t : Treatment) : Option MethodFailure :=
  match t.done.answer with
  | .ok _ => none
  | .error failure => some failure

def fate (t : Treatment) : Fate :=
  match t.done.answer with
  | .ok handling => handling.fate
  | .error failure => .failed failure.message

def entry (t : Treatment) : Entry := ⟨t.fullName, t.fate⟩

/-- The treatment is that of the method alone, and changes of it what the kind of treatment has to
change. -/
structure Lawful (p : Plan) (t : Treatment) : Prop where
  alone : t.done = p.treat t.site.owner t.site.method t.number
  failed : ∀ failure, t.done.answer = .error failure →
    failure.method = t.fullName ∧ t.done.thing = t.site.method
  skipped : ∀ reason, t.done.answer = .ok (.skipped reason) → t.done.thing = t.site.method
  bracketed : t.done.answer = .ok (.instrumented .bracketed) →
    ∃ body, t.done.thing = { t.site.method with body := some body }
  correlated : ∀ id, t.done.answer = .ok (.instrumented (.correlated id)) → id = t.number ∧
    ∃ machine index step body, t.site.method.machine = some machine ∧
      machine.candidates p.config.step.stepMethod = [index] ∧
      machine.methods[index]? = some step ∧
      t.done.thing = { t.site.method with
        machine := some { machine with
          methods := machine.methods.set index { step with body := some body } } }

end Treatment

def through {α : Type} (stop : α → Bool) : List α → List α
  | [] => []
  | a :: as => a :: if stop a then [] else through stop as

theorem through_prefix {α : Type} (stop : α → Bool) (xs : List α) : through stop xs <+: xs := by
  induction xs with
  | nil => exact List.prefix_refl _
  | cons x xs ih =>
    refine List.cons_prefix_cons.2 ⟨rfl, ?_⟩
    split
    · exact List.nil_prefix
    · exact ih

theorem through_eq_self {α : Type} {stop : α → Bool} {xs : List α}
    (h : ∀ x ∈ through stop xs, stop x = false) : through stop xs = xs := by
  induction xs with
  | nil => rfl
  | cons x xs ih =>
    obtain ⟨hx, hxs⟩ := List.forall_mem_cons.1 h
    rw [if_neg (by simp [hx])] at hxs
    rw [through, if_neg (by simp [hx]), ih hxs]

theorem getLast?_through {α : Type} {stop : α → Bool} {xs : List α} {x : α}
    (hx : x ∈ through stop xs) (hs : stop x = true) : (through stop xs).getLast? = some x := by
  induction xs with
  | nil => cases hx
  | cons y ys ih =>
    rw [through] at hx ⊢
    split at hx
    · rename_i hy
      rw [if_pos hy, List.mem_singleton.1 hx]
      rfl
    · rename_i hy
      rw [if_neg hy]
      obtain rfl | hx := List.mem_cons.1 hx
      · exact absurd hs hy
      · rw [List.getLast?_cons, ih hx]
        rfl

def Report.note (r : Report) (t : Treatment) : Report :=
  ⟨r.module, r.entries ++ [t.entry], r.failures ++ t.failure?.toList⟩

theorem Report.foldl_note (r : Report) (ts : List Treatment) : ts.foldl note r =
    ⟨r.module, r.entries ++ ts.map Treatment.entry,
      r.failures ++ ts.filterMap Treatment.failure?⟩ := by
  induction ts generalizing r with
  | nil => simp
  | cons t ts ih => cases h : t.failure? <;> simp [ih, note, h]

namespace ModuleDecl

variable {module : ModuleDecl} {slot : Slot} {t : Treatment} {ts : List Treatment}

def put (module : ModuleDecl) (t : Treatment) : ModuleDecl :=
  module.setMethod t.site.slot t.done.thing

theorem name_foldl_put (module : ModuleDecl) (ts : List Treatment) :
    (ts.foldl put module).name = module.name := by
  induction ts generalizing module with
  | nil => rfl
  | cons t ts ih => exact ih (module.put t)

theorem owners_foldl_put (module : ModuleDecl) (ts : List Treatment) :
    (ts.foldl put module).types.map TypeDecl.toOwner = module.types.map TypeDecl.toOwner := by
  induction ts generalizing module with
  | nil => rfl
  | cons t ts ih => exact (ih (module.put t)).trans (types_setMethod module _ _)

theorem method?_foldl_put_of_ne (h : ∀ t ∈ ts, t.site.slot ≠ slot) :
    (ts.foldl put module).method? slot = module.method? slot := by
  induction ts generalizing module with
  | nil => rfl
  | cons t ts ih =>
    obtain ⟨ht, hts⟩ := List.forall_mem_cons.1 h
    exact (ih hts).trans (method?_setMethod_of_ne ht)

theorem method?_foldl_put (hn : (ts.map (·.site.slot)).Nodup)
    (hm : ∀ t ∈ ts, module.method? t.site.slot = some (t.site.owner, t.site.method)) (ht : t ∈ ts) :
    (ts.foldl put module).method? t.site.slot = some (t.site.owner, t.done.thing) := by
  induction ts generalizing module with
  | nil => cases ht
  | cons u us ih =>
    obtain ⟨hu, hn⟩ := List.nodup_cons.1 hn
    obtain ⟨hmu, hm⟩ := List.forall_mem_cons.1 hm
    have hne : ∀ v ∈ us, u.site.slot ≠ v.site.slot := fun v hv he ↦
      hu (List.mem_map.2 ⟨v, hv, he.symm⟩)
    obtain rfl | ht := List.mem_cons.1 ht
    · exact (method?_foldl_put_of_ne fun v hv ↦ (hne v hv).symm).trans (method?_setMethod_self hmu)
    · exact ih hn (fun v hv ↦ (method?_setMethod_of_ne (hne v hv)).trans (hm v hv)) ht

end ModuleDecl

namespace Plan

variable {p : Plan} {o : Owner} {m : MethodDecl} {next : Int32}

/-- Each method treated on its own; only the correlation numbers go on from one to the next. -/
def apart (p : Plan) : Int32 → List Site → List Treatment
  | _, [] => []
  | next, s :: ss =>
    let done := p.treat s.owner s.method next
    ⟨s, next, done⟩ :: p.apart done.next ss

/-- What a batch treats: the methods chosen, in the order of declaration, and with `failFast` only up
to the first that fails. -/
def treatments (p : Plan) (module : ModuleDecl) (next : Int32) : List Treatment :=
  through (fun t ↦ p.config.failFast && t.failed)
    (p.apart next (module.sites.filter p.config.Chooses))

def chained (o : Owner) (m : MethodDecl) : Except Refusal (Option TypeName) :=
  if m.isConstructor then
    match o.base with
    | some base => .ok (some base)
    | none => .error .noBaseCall
  else .ok none

theorem bracket_of_body {body : Body} (hbody : m.body = some body) : p.bracket o m =
    match chained o m with
    | .error e => .error e
    | .ok base =>
      match body.bracket base m.result (m.fullName o) p.hooks with
      | (.ok (), body) => .ok { m with body := some body }
      | (.error e, _) => .error e := by
  unfold bracket chained
  rw [hbody]
  cases m.isConstructor with
  | false => rfl
  | true => cases o.base <;> rfl

theorem bracket_eq_ok {m' : MethodDecl} (h : p.bracket o m = .ok m') :
    ∃ body, m' = { m with body := some body } := by
  cases hb : m.body with
  | none =>
    unfold bracket at h
    simp only [hb] at h
    split at h
    · split at h <;> cases h
    · cases h
  | some body =>
    rw [bracket_of_body hb] at h
    split at h
    · cases h
    · split at h
      · exact ⟨_, (Except.ok.inj h).symm⟩
      · cases h

theorem stepIndex_eq_ok {machine : StateMachine MethodDecl} {name : String} {index : Nat}
    (h : machine.stepIndex name = .ok index) : machine.candidates name = [index] := by
  unfold StateMachine.stepIndex at h
  split at h
  · rename_i only hc
    rw [hc, Except.ok.inj h]
  · cases h

/-- Only a step method that has taken the whole edit is put back. -/
theorem correlate_thing (p : Plan) (o : Owner) (m : MethodDecl) (next : Int32) :
    (∃ cause, (p.correlate o m next).answer = .error cause ∧ (p.correlate o m next).thing = m) ∨
      (p.correlate o m next).answer = .ok (.correlated next) ∧
        ∃ machine index step body, m.machine = some machine ∧
          machine.candidates p.config.step.stepMethod = [index] ∧
          machine.methods[index]? = some step ∧
          (p.correlate o m next).thing = { m with
            machine := some { machine with
              methods := machine.methods.set index { step with body := some body } } } := by
  unfold correlate
  cases hm : m.machine with
  | none => exact .inl ⟨_, rfl, rfl⟩
  | some machine =>
    cases hi : machine.stepIndex p.config.step.stepMethod with
    | error e => exact .inl ⟨e, by simp only [hi], by simp only [hi]⟩
    | ok index =>
      simp only [hi]
      cases hstep : machine.methods[index]? with
      | none => exact .inl ⟨_, rfl, rfl⟩
      | some step =>
        cases hbody : step.body with
        | none => exact .inl ⟨.noBody, by simp only [hbody], by simp only [hbody]⟩
        | some body =>
          simp only [hbody, drawId]
          rcases body.correlate next (m.fullName o) p.hooks p.config.step with ⟨_ | _, body'⟩
          · exact .inl ⟨_, rfl, rfl⟩
          · exact .inr ⟨rfl, machine, index, step, body', rfl, stepIndex_eq_ok hi, hstep, rfl⟩

theorem lawful (p : Plan) (s : Site) (next : Int32) :
    Treatment.Lawful p ⟨s, next, p.treat s.owner s.method next⟩ := by
  obtain ⟨slot, o, m⟩ := s
  cases hs : p.shape o m with
  | generator =>
    have ht : p.treat o m next = ⟨.ok (.skipped generatorReason), m, next⟩ := by
      simp only [treat, hs]
    exact ⟨rfl, by simp [ht], by simp [ht], by simp [ht], by simp [ht]⟩
  | plain =>
    cases hb : p.bracket o m with
    | error cause =>
      have ht : p.treat o m next = ⟨.error ⟨m.fullName o, cause⟩, m, next⟩ := by
        simp only [treat, hs, hb]
      refine ⟨rfl, fun failure hf ↦ ?_, by simp [ht], by simp [ht], by simp [ht]⟩
      simp only [ht] at hf ⊢
      exact ⟨Except.error.inj hf ▸ rfl, trivial⟩
    | ok m' =>
      have ht : p.treat o m next = ⟨.ok (.instrumented .bracketed), m', next⟩ := by
        simp only [treat, hs, hb]
      exact ⟨rfl, by simp [ht], by simp [ht], fun _ ↦ by simpa only [ht] using bracket_eq_ok hb,
        by simp [ht]⟩
  | async =>
    obtain ⟨cause, ha, hthing⟩ | ⟨ha, hthing⟩ := p.correlate_thing o m next
    · have ht : p.treat o m next =
          ⟨.error ⟨m.fullName o, cause⟩, m, (p.correlate o m next).next⟩ := by
        simp only [treat, hs, ha, hthing]
      refine ⟨rfl, fun failure hf ↦ ?_, by simp [ht], by simp [ht], by simp [ht]⟩
      simp only [ht] at hf ⊢
      exact ⟨Except.error.inj hf ▸ rfl, trivial⟩
    · have ht : p.treat o m next = ⟨.ok (.instrumented (.correlated next)),
          (p.correlate o m next).thing, (p.correlate o m next).next⟩ := by
        simp only [treat, hs, ha]
      refine ⟨rfl, by simp [ht], by simp [ht], by simp [ht], fun id hid ↦ ?_⟩
      simp only [ht] at hid ⊢
      obtain rfl : next = id := by simpa using hid
      exact ⟨rfl, hthing⟩

theorem map_site_apart (p : Plan) (next : Int32) (ss : List Site) :
    (p.apart next ss).map Treatment.site = ss := by
  induction ss generalizing next with
  | nil => rfl
  | cons s ss ih => exact congrArg (s :: ·) (ih _)

theorem lawful_of_mem_apart {ss : List Site} {t : Treatment} (ht : t ∈ p.apart next ss) :
    t.Lawful p := by
  induction ss generalizing next with
  | nil => cases ht
  | cons s ss ih =>
    obtain rfl | ht := List.mem_cons.1 ht
    · exact p.lawful s next
    · exact ih ht

theorem treatAll_cons (p : Plan) (report : Report) (next : Int32) {module : ModuleDecl} {s : Site}
    (slots : List Slot) (hm : module.method? s.slot = some (s.owner, s.method)) :
    let t : Treatment := ⟨s, next, p.treat s.owner s.method next⟩
    p.treatAll report module next (s.slot :: slots) =
      if p.config.failFast && t.failed then ⟨report.note t, module.put t, t.done.next⟩
      else p.treatAll (report.note t) (module.put t) t.done.next slots := by
  have hlaw := p.lawful s next
  simp only [treatAll, hm]
  generalize p.treat s.owner s.method next = done at hlaw
  obtain ⟨answer, m, next'⟩ := done
  cases answer with
  | ok handling =>
    have hnote : report.note ⟨s, next, ⟨.ok handling, m, next'⟩⟩ =
        report.record (s.method.fullName s.owner) handling.fate := by
      simp [Report.note, Report.record, Treatment.entry, Treatment.fate, Treatment.failure?,
        Treatment.fullName]
    rw [hnote, show Treatment.failed ⟨s, next, ⟨.ok handling, m, next'⟩⟩ = false from rfl,
      Bool.and_false]
    rfl
  | error failure =>
    have hnote : report.note ⟨s, next, ⟨.error failure, m, next'⟩⟩ = report.recordFailure failure := by
      simp [Report.note, Report.record, Report.recordFailure, Treatment.entry, Treatment.fate,
        Treatment.failure?, (hlaw.failed failure rfl).1]
    rw [hnote, show Treatment.failed ⟨s, next, ⟨.error failure, m, next'⟩⟩ = true from rfl,
      Bool.and_true]
    rfl

/-- Treating methods in the module is treating each of them apart, as long as each place holds what
stood there at the beginning. -/
theorem treatAll_eq (p : Plan) (report : Report) (next : Int32) {module : ModuleDecl}
    {ss : List Site} (hn : (ss.map Site.slot).Nodup)
    (hm : ∀ s ∈ ss, module.method? s.slot = some (s.owner, s.method)) :
    let ts := through (fun t ↦ p.config.failFast && t.failed) (p.apart next ss)
    p.treatAll report module next (ss.map Site.slot) =
      ⟨ts.foldl Report.note report, ts.foldl ModuleDecl.put module,
        ts.foldl (fun _ t ↦ t.done.next) next⟩ := by
  induction ss generalizing report module next with
  | nil => rfl
  | cons s ss ih =>
    obtain ⟨hs, hn⟩ := List.nodup_cons.1 hn
    obtain ⟨hms, hm⟩ := List.forall_mem_cons.1 hm
    rw [List.map_cons, p.treatAll_cons report next _ hms]
    simp only [apart, through, List.foldl_cons]
    split
    · rfl
    · refine ih _ _ hn fun s' hs' ↦ ?_
      have hne : s.slot ≠ s'.slot := fun he ↦ hs (List.mem_map.2 ⟨s', hs', he.symm⟩)
      exact (ModuleDecl.method?_setMethod_of_ne hne).trans (hm s' hs')

theorem number_apart {ss : List Site} {k : Nat} {t : Treatment}
    (h : (p.apart next ss)[k]? = some t) :
    t.number = ((p.apart next ss).take k).foldl (fun _ t ↦ t.done.next) next := by
  induction ss generalizing next k with
  | nil => cases h
  | cons s ss ih =>
    cases k with
    | zero =>
      obtain rfl := Option.some.inj h
      rfl
    | succ k => exact ih h

/-- What a batch comes to that has treated `ts`. -/
structure Isolated (p : Plan) (module : ModuleDecl) (next : Int32) (ts : List Treatment)
    (report : Report) (after : ModuleDecl) (next' : Int32) : Prop where
  chosen : ts.map Treatment.site <+: module.sites.filter p.config.Chooses
  all : (p.config.failFast = true → ∀ t ∈ ts, t.failed = false) →
    ts.map Treatment.site = module.sites.filter p.config.Chooses
  cut : p.config.failFast = true → ∀ t ∈ ts, t.failed = true → ts.getLast? = some t
  lawful : ∀ t ∈ ts, t.Lawful p
  numbers : ∀ k t, ts[k]? = some t → t.number = (ts.take k).foldl (fun _ t ↦ t.done.next) next
  number : next' = ts.foldl (fun _ t ↦ t.done.next) next
  entries : report.entries = ts.map Treatment.entry
  failures : report.failures = ts.filterMap Treatment.failure?
  treated : ∀ t ∈ ts, after.method? t.site.slot = some (t.site.owner, t.done.thing)
  untouched : ∀ slot, (∀ t ∈ ts, t.site.slot ≠ slot) → after.method? slot = module.method? slot
  owners : after.types.map TypeDecl.toOwner = module.types.map TypeDecl.toOwner
  name : after.name = module.name ∧ report.module = module.name

theorem treatAll_isolated (p : Plan) (module : ModuleDecl) (next : Int32) :
    let done := p.treatAll (.empty module.name) module next (p.config.select module)
    p.Isolated module next (p.treatments module next) done.answer done.thing done.next := by
  intro done
  let ts := p.treatments module next
  have hsub : (module.sites.filter p.config.Chooses).Sublist module.sites := List.filter_sublist
  have hnodup : ((module.sites.filter p.config.Chooses).map Site.slot).Nodup :=
    module.nodup_sites.sublist (hsub.map _)
  have hmem : ∀ s ∈ module.sites.filter p.config.Chooses,
      module.method? s.slot = some (s.owner, s.method) := fun s hs ↦
    ModuleDecl.mem_sites.1 (hsub.subset hs)
  have hdone : done = ⟨ts.foldl Report.note (.empty module.name), ts.foldl ModuleDecl.put module,
      ts.foldl (fun _ t ↦ t.done.next) next⟩ := by
    simp only [done, Config.select_eq]
    exact p.treatAll_eq _ _ hnodup hmem
  have hcut : ts <+: p.apart next (module.sites.filter p.config.Chooses) := through_prefix _ _
  have hsites : ts.map Treatment.site <+: module.sites.filter p.config.Chooses := by
    simpa only [map_site_apart] using hcut.map Treatment.site
  have hfold := Report.foldl_note (.empty module.name) ts
  have hin : ∀ t ∈ ts, t.site ∈ module.sites.filter p.config.Chooses := fun t ht ↦
    hsites.subset (List.mem_map_of_mem ht)
  have hslots : (ts.map fun t ↦ t.site.slot).Nodup := by
    have h := hnodup.sublist (hsites.sublist.map Site.slot)
    rwa [List.map_map] at h
  rw [hdone]
  refine ⟨hsites, fun hnone ↦ ?_, fun hff t ht hfail ↦ ?_, fun t ht ↦ ?_, fun k t hk ↦ ?_, rfl, ?_, ?_,
    fun t ht ↦ ?_, fun slot hslot ↦ ?_, ?_, ?_⟩
  · have hts : p.treatments module next = p.apart next (module.sites.filter p.config.Chooses) := by
      refine through_eq_self fun t ht ↦ ?_
      cases hff : p.config.failFast with
      | true => exact hnone hff t ht
      | false => rfl
    rw [hts, map_site_apart]
  · exact getLast?_through ht (by rw [hff, hfail]; rfl)
  · exact lawful_of_mem_apart (hcut.subset ht)
  · obtain ⟨rest, hrest⟩ := hcut
    have hlt := (List.getElem?_eq_some_iff.1 hk).1
    have hk' : (ts ++ rest)[k]? = some t := (List.getElem?_append_left hlt).trans hk
    rw [hrest] at hk'
    rw [number_apart hk', ← hrest, List.take_append_of_le_length (Nat.le_of_lt hlt)]
  · rw [hfold]
    exact List.nil_append _
  · rw [hfold]
    exact List.nil_append _
  · exact ModuleDecl.method?_foldl_put hslots (fun t ht ↦ hmem _ (hin t ht)) ht
  · exact ModuleDecl.method?_foldl_put_of_ne hslot
  · exact ModuleDecl.owners_foldl_put module ts
  · exact ⟨ModuleDecl.name_foldl_put module ts, by rw [hfold]; rfl⟩

/-- Of the rules, what becomes of one method and whether a batch starts depend on the step pattern
alone. -/
theorem congr_of_step {c' : Config} (h : c'.step = p.config.step) :
    (Plan.mk p.hooks c').treat = p.treat ∧ (Plan.mk p.hooks c').precheck = p.precheck := by
  obtain ⟨hooks, namespaces, types, methods, failFast, step⟩ := p
  obtain ⟨namespaces', types', methods', failFast', step'⟩ := c'
  obtain rfl : step' = step := h
  exact ⟨rfl, rfl⟩

theorem treatAll_congr {c' : Config} (h : p.config.Agrees c') (report : Report)
    (module : ModuleDecl) (next : Int32) (slots : List Slot) :
    (Plan.mk p.hooks c').treatAll report module next slots =
      p.treatAll report module next slots := by
  induction slots generalizing report module next with
  | nil => rfl
  | cons slot slots ih => simp only [treatAll, (congr_of_step h.step).1, h.failFast, ih]

theorem run_congr {c' : Config} (h : p.config.Agrees c') (module : ModuleDecl) (next : Int32) :
    (Plan.mk p.hooks c').run module next = p.run module next := by
  simp only [run, h.select_eq, (congr_of_step h.step).2, treatAll_congr h]

/-- A batch that gives a report treats the methods chosen, each as if it were alone, in the order of
declaration, and leaves the rest of the module as it was. For the choice it does not matter in what
order and how often the names are listed. -/
theorem run_isolated {module after : ModuleDecl} {report : Report} {next' : Int32}
    (h : p.run module next = ⟨.ok report, after, next'⟩) :
    p.Isolated module next (p.treatments module next) report after next' ∧
      ∀ c', p.config.Agrees c' →
        (Plan.mk p.hooks c').run module next = ⟨.ok report, after, next'⟩ := by
  refine ⟨?_, fun c' hc ↦ (run_congr hc module next).trans h⟩
  simp only [run] at h
  cases hpre : p.precheck module (p.config.select module) with
  | error obstacle =>
    rw [hpre] at h
    cases (Treated.mk.inj h).1
  | ok =>
    rw [hpre] at h
    obtain ⟨hreport, rfl, rfl⟩ := Treated.mk.inj h
    rw [← Except.ok.inj hreport]
    exact p.treatAll_isolated module next

/-- A method that is bracketed, one that calls the tracer already, a generator, an asynchronous one,
and two that are not chosen. -/
def mixedJobs : ModuleDecl where
  name := "App"
  types := [⟨⟨"App", "Jobs", none, ["<Walk>d__0", "<Fetch>d__1"]⟩, [
    { work with name := "Count" },
    { work with
      name := "Traced"
      body := some { count with
        code := ⟨⟨2⟩, .call (Hook.exit.callee ⟨"App", "Tracer"⟩)⟩ :: count.code, next := 3 } },
    { work with name := "Walk", result := ⟨"System.Collections", "IEnumerable"⟩ },
    { work with
      name := "Fetch"
      attributes := [asyncAttribute]
      machine := some ⟨⟨"App", "<Fetch>d__1"⟩, [
        { work with
          name := "MoveNext"
          result := .void
          body := some { count with code := [⟨⟨0⟩, .branch .leave .short ⟨1⟩⟩, ⟨⟨1⟩, .ret⟩] } }]⟩ },
    { work with name := "Planned", isAbstract := true, body := none }]⟩,
    ⟨⟨"App", "Other", none, []⟩, [{ work with name := "Count" }]⟩]
where
  count : Body := ⟨[⟨⟨0⟩, .ldc 7⟩, ⟨⟨1⟩, .ret⟩], [], [], false, 2⟩
  work : MethodDecl := ⟨"", [], .int32, true, false, [], some count, none⟩

theorem run_isolated_mixedJobs :
    let jobs : Config := .ofLists [] ["Jobs"] []
    let p : Plan := ⟨.on ⟨"App", "Tracer"⟩, jobs⟩
    ∃ report after next', p.run mixedJobs 4 = ⟨.ok report, after, next'⟩ ∧
      report.entries.map (fun e ↦ e.fate.isInstrumented) = [true, false, false, true] ∧
      report.entries.map (fun e ↦ e.fate.isFailed) = [false, true, false, false] ∧
      p.Isolated mixedJobs 4 (p.treatments mixedJobs 4) report after next' ∧
      (Plan.mk p.hooks { jobs with types := ["Jobs", "Jobs"] }).run mixedJobs 4 =
        ⟨.ok report, after, next'⟩ := by
  intro jobs p
  have hok : ((p.run mixedJobs 4).answer.toOption.map fun r ↦
      (r.entries.map (fun e ↦ e.fate.isInstrumented), r.entries.map fun e ↦ e.fate.isFailed)) =
      some ([true, false, false, true], [false, true, false, false]) := by decide +kernel
  cases ha : (p.run mixedJobs 4).answer with
  | error obstacle =>
    rw [ha] at hok
    cases hok
  | ok report =>
    rw [ha] at hok
    obtain ⟨hdone, hfailed⟩ := Prod.mk.inj (Option.some.inj hok)
    have hrun : p.run mixedJobs 4 =
        ⟨.ok report, (p.run mixedJobs 4).thing, (p.run mixedJobs 4).next⟩ := by rw [← ha]
    obtain ⟨hiso, hsame⟩ := run_isolated hrun
    have htypes (name : String) : name ∈ ["Jobs", "Jobs"] ↔ name ∈ ["Jobs"] := by simp
    exact ⟨report, _, _, hrun, hdone, hfailed, hiso,
      hsame _ ⟨fun _ ↦ Iff.rfl, htypes, fun _ ↦ Iff.rfl, rfl, rfl⟩⟩

end Plan

end CilSpan
