import CilSpan.Proofs.Batch.Preconditions
import CilSpan.Proofs.Span.CorrelateBehaviour
import CilSpan.Proofs.Span.Marked

namespace CilSpan

def Fate.number? : Fate → Option Int32
  | .instrumented (.correlated id) => some id
  | _ => none

/-- However the body is invoked, the ends of correlated spans in its record bear this number and this
name. -/
def Body.Bears (b : Body) (hooks : Hooks) (id : Int32) (name : String) : Prop :=
  ∀ {σ : Type} (host : Host σ) (call : Invocation) (heap : Heap) (world : σ) (e : Execution),
    (b.invoke hooks host call heap world).answer = .ok e →
    ∀ v ∈ e.trace.events, v.isCorrelated = true → v = .asyncEnter id name ∨ v = .asyncExit id name

/-- One run of a session: the module, the number it begins with, what comes out and what it has
treated. -/
structure Job where
  module : ModuleDecl
  next : Int32
  done : Treated (Except Obstacle Report) ModuleDecl
  treated : List Treatment

def Job.reported (job : Job) : List Int32 :=
  match job.done.answer with
  | .ok report => report.entries.filterMap fun e ↦ e.fate.number?
  | .error _ => []

namespace Plan

variable {p : Plan} {o : Owner} {m : MethodDecl} {next : Int32} {ts : List Treatment} {k : Nat}

def session (p : Plan) (next : Int32) : List ModuleDecl → List Job
  | [] => []
  | module :: modules =>
    let done := p.run module next
    let treated :=
      match done.answer with
      | .ok _ => p.treatments module next
      | .error _ => []
    ⟨module, next, done, treated⟩ :: p.session done.next modules

def draws (p : Plan) (t : Treatment) : Bool := p.shape t.site.owner t.site.method = .async

structure Runs (p : Plan) (job : Job) : Prop where
  run : job.done = p.run job.module job.next
  refused : ∀ obstacle, job.done.answer = .error obstacle →
    job.treated = [] ∧ job.done.thing = job.module ∧ job.done.next = job.next
  started : ∀ report, job.done.answer = .ok report →
    p.Isolated job.module job.next job.treated report job.done.thing job.done.next ∧
      ∀ t ∈ job.treated, p.Handles t.site.owner t.site.method t.number t.done

/-- The step method has got a body in which every call of a correlated hook is new and stands behind
the loading of the number, and one such call enters the span. If there was no flaw in the old body,
nothing gets to such a call with another number. -/
def StepCarries (p : Plan) (t : Treatment) (id : Int32) : Prop :=
  ∃ machine index step body body', t.site.method.machine = some machine ∧
    machine.candidates p.config.step.stepMethod = [index] ∧ machine.methods[index]? = some step ∧
    step.body = some body ∧ t.done.thing = withStep t.site.method machine index step body' ∧
    (∀ callee ∈ p.hooks.all, body.calls callee = false) ∧ body'.calls p.hooks.asyncEnter = true ∧
    Carries p.hooks.asyncEnter id t.fullName (body'.code.map Instr.op) ∧
    Carries p.hooks.asyncExit id t.fullName (body'.code.map Instr.op) ∧
    (body.flaw? = none → ∀ tracer, p.hooks = .on tracer → body'.Bears p.hooks id t.fullName)

theorem Handles.next_eq {done : Treated (Except MethodFailure Handling) MethodDecl}
    (h : p.Handles o m next done) :
    done.next = if p.shape o m = .async then next + 1 else next := by
  cases h with
  | skipped hs | unbracketed hs | bracketed hs => simp [hs]
  | uncorrelated hs | correlated hs => simp [hs]

theorem Handles.carries {t : Treatment} {id : Int32}
    (h : p.Handles t.site.owner t.site.method t.number t.done) (hid : t.fate.number? = some id) :
    p.draws t = true ∧ id = t.number ∧ p.StepCarries t id := by
  obtain ⟨s, number, done⟩ := t
  dsimp only at h
  unfold Treatment.fate at hid
  cases h with
  | skipped | unbracketed | bracketed | uncorrelated => cases hid
  | correlated hs machine index step body body' exits hm hindex hstep hbody hout =>
    obtain rfl := Option.some.inj hid
    obtain ⟨hfree, -, hcall, hcarries⟩ := correlate_marks hout
    refine ⟨by simp [draws, hs], rfl, machine, index, step, body, body', hm, hindex, hstep, hbody,
      rfl, fun callee hc ↦ ?_, ?_, hcarries _ (p.hooks.get_mem_all .asyncEnter),
      hcarries _ (p.hooks.get_mem_all .asyncExit), fun hflaw tracer htracer ↦ ?_⟩
    · simpa using List.find?_eq_none.1 hfree callee hc
    · obtain ⟨i, hi, he⟩ := List.mem_map.1 hcall
      exact List.any_eq_true.2 ⟨i, hi, by simp [he, Op.callee?]⟩
    · rw [htracer] at hout ⊢
      exact fun host call heap world e he ↦ correlate_bears hflaw hout he

/-- The numbers that one run gives out go on from the one it begins with. -/
theorem numbers_of_handles (k : Nat)
    (hnumber : ∀ n t, ts[n]? = some t →
      t.number = (ts.take n).foldl (fun _ t ↦ t.done.next) (.ofNat k))
    (h : ∀ t ∈ ts, p.Handles t.site.owner t.site.method t.number t.done) :
    (ts.filter p.draws).map Treatment.number =
        (List.range' k (ts.countP p.draws)).map Int32.ofNat ∧
      ts.foldl (fun _ t ↦ t.done.next) (.ofNat k) = .ofNat (k + ts.countP p.draws) := by
  induction ts generalizing k with
  | nil => exact ⟨rfl, rfl⟩
  | cons t ts ih =>
    obtain ⟨ht, hts⟩ := List.forall_mem_cons.1 h
    have hfirst : t.number = .ofNat k := hnumber 0 t rfl
    have hnext := ht.next_eq
    by_cases hd : p.shape t.site.owner t.site.method = .async
    · rw [if_pos hd, hfirst] at hnext
      have hsucc : t.done.next = .ofNat (k + 1) := by rw [hnext, Int32.ofNat_add]; rfl
      obtain ⟨hmap, hfold⟩ := ih (k + 1) (fun n u hu ↦ hsucc ▸ hnumber (n + 1) u hu) hts
      have hdraws : p.draws t = true := by simp [draws, hd]
      rw [List.filter_cons_of_pos hdraws, List.countP_cons_of_pos hdraws, List.map_cons, hmap,
        hfirst, List.foldl_cons, hsucc, hfold, List.range'_succ, List.map_cons]
      exact ⟨rfl, by rw [Nat.add_right_comm, Nat.add_assoc]⟩
    · rw [if_neg hd, hfirst] at hnext
      obtain ⟨hmap, hfold⟩ := ih k (fun n u hu ↦ hnext ▸ hnumber (n + 1) u hu) hts
      have hdraws : ¬p.draws t = true := by simp [draws, hd]
      rw [List.filter_cons_of_neg hdraws, List.countP_cons_of_neg hdraws, hmap, List.foldl_cons,
        hnext, hfold]
      exact ⟨rfl, rfl⟩

theorem reported_sublist (h : ∀ t ∈ ts, p.Handles t.site.owner t.site.method t.number t.done) :
    (ts.filterMap fun t ↦ t.fate.number?).Sublist ((ts.filter p.draws).map Treatment.number) := by
  induction ts with
  | nil => exact List.Sublist.refl _
  | cons t ts ih =>
    obtain ⟨ht, hts⟩ := List.forall_mem_cons.1 h
    have hrest := ih hts
    cases hid : t.fate.number? with
    | some id =>
      obtain ⟨hdraws, rfl, -⟩ := ht.carries hid
      simp only [List.filterMap_cons, hid, List.filter_cons_of_pos hdraws, List.map_cons]
      exact hrest.cons_cons _
    | none =>
      simp only [List.filterMap_cons, hid]
      refine hrest.trans (List.Sublist.map _ ?_)
      exact (List.sublist_cons_self t ts).filter _

theorem runs_of_mem_session {modules : List ModuleDecl} {job : Job}
    (h : job ∈ p.session next modules) : p.Runs job := by
  induction modules generalizing next with
  | nil => cases h
  | cons module modules ih =>
    obtain rfl | h := List.mem_cons.1 h
    · cases hpre : p.precheck module (p.config.select module) with
      | error obstacle =>
        have hrun := run_of_obstacle hpre next
        exact ⟨rfl, fun _ _ ↦ by simp [hrun], by simp [hrun]⟩
      | ok =>
        have hfit := precheck_eq_ok.1 hpre
        obtain ⟨report, after, next', hrun, hiso⟩ := run_of_fits hfit next
        refine ⟨rfl, by simp [hrun], fun report' ha ↦ ?_⟩
        simp only [hrun] at ha ⊢
        obtain rfl := Except.ok.inj ha
        exact ⟨hiso, hiso.handles hfit⟩
    · exact ih h

theorem map_module_session (p : Plan) (next : Int32) (modules : List ModuleDecl) :
    (p.session next modules).map Job.module = modules := by
  induction modules generalizing next with
  | nil => rfl
  | cons module modules ih => exact congrArg (module :: ·) (ih _)

theorem Runs.handles {job : Job} (h : p.Runs job) :
    ∀ t ∈ job.treated, p.Handles t.site.owner t.site.method t.number t.done := by
  cases ha : job.done.answer with
  | error obstacle =>
    rw [(h.refused obstacle ha).1]
    nofun
  | ok report => exact (h.started report ha).2

theorem Runs.numbers {job : Job} (h : p.Runs job) (hk : job.next = .ofNat k) :
    (job.treated.filter p.draws).map Treatment.number =
        (List.range' k (job.treated.countP p.draws)).map Int32.ofNat ∧
      job.done.next = .ofNat (k + job.treated.countP p.draws) ∧
      job.reported.Sublist ((job.treated.filter p.draws).map Treatment.number) := by
  cases ha : job.done.answer with
  | error obstacle =>
    obtain ⟨htreated, -, hnext⟩ := h.refused obstacle ha
    have hreported : job.reported = [] := by simp only [Job.reported, ha]
    rw [htreated, hnext, hreported, hk]
    exact ⟨rfl, rfl, List.Sublist.refl _⟩
  | ok report =>
    obtain ⟨hiso, hhandles⟩ := h.started report ha
    obtain ⟨hmap, hfold⟩ := numbers_of_handles k (hk ▸ hiso.numbers) hhandles
    refine ⟨hmap, by rw [hiso.number, hk, hfold], ?_⟩
    have hreported : job.reported = job.treated.filterMap fun t ↦ t.fate.number? := by
      simp only [Job.reported, ha, hiso.entries, List.filterMap_map]
      rfl
    exact hreported ▸ reported_sublist hhandles

def drawn (p : Plan) (jobs : List Job) : List Treatment :=
  (jobs.flatMap Job.treated).filter p.draws

theorem drawn_cons (p : Plan) (job : Job) (jobs : List Job) :
    p.drawn (job :: jobs) = job.treated.filter p.draws ++ p.drawn jobs := by
  simp only [drawn, List.flatMap_cons, List.filter_append]

structure Accounted (p : Plan) (k : Nat) (jobs : List Job) : Prop where
  numbers : (p.drawn jobs).map Treatment.number =
    (List.range' k (p.drawn jobs).length).map Int32.ofNat
  next : ∀ (n : Nat) (job : Job), jobs[n]? = some job →
    job.next = .ofNat (k + (p.drawn (jobs.take n)).length) ∧
      job.done.next = .ofNat (k + (p.drawn (jobs.take (n + 1))).length)
  reported : (jobs.flatMap Job.reported).Sublist ((p.drawn jobs).map Treatment.number)

theorem Accounted.cons {job : Job} {jobs : List Job} (hjob : p.Runs job) (hk : job.next = .ofNat k)
    (h : p.Accounted (k + job.treated.countP p.draws) jobs) : p.Accounted k (job :: jobs) := by
  obtain ⟨hmap, hnext, hreported⟩ := hjob.numbers hk
  have hlength (jobs : List Job) : (p.drawn (job :: jobs)).length =
      job.treated.countP p.draws + (p.drawn jobs).length := by
    rw [drawn_cons, List.length_append, List.countP_eq_length_filter]
  refine ⟨?_, fun n job' hn ↦ ?_, ?_⟩
  · rw [hlength, drawn_cons, List.map_append, hmap, h.numbers, ← List.map_append,
      List.range'_append_1]
  · cases n with
    | zero =>
      obtain rfl := Option.some.inj hn
      refine ⟨hk, ?_⟩
      rw [List.take_succ_cons, hlength]
      exact hnext
    | succ n =>
      rw [List.take_succ_cons, List.take_succ_cons, hlength, hlength, ← Nat.add_assoc,
        ← Nat.add_assoc]
      exact h.next n job' hn
  · rw [drawn_cons, List.flatMap_cons, List.map_append]
    exact hreported.append h.reported

theorem accounted_session (p : Plan) (k : Nat) (modules : List ModuleDecl) :
    p.Accounted k (p.session (.ofNat k) modules) := by
  induction modules generalizing k with
  | nil => exact ⟨rfl, nofun, List.Sublist.refl _⟩
  | cons module modules ih =>
    have hall : ∀ job ∈ p.session (.ofNat k) (module :: modules), p.Runs job :=
      fun job ↦ runs_of_mem_session
    have hruns := hall _ List.mem_cons_self
    refine Accounted.cons hruns rfl ?_
    have hnext : (p.run module (.ofNat k)).next = _ := (hruns.numbers rfl).2.1
    rw [hnext]
    exact ih _

theorem pairwise_lt_ofNat {n : Nat} (h : 2 * n ≤ Int32.size) :
    ((List.range' 0 n).map Int32.ofNat).Pairwise (· < ·) := by
  refine List.pairwise_map.2 ((List.pairwise_lt_range' 1).imp_of_mem fun {a b} ha hb hlt ↦ ?_)
  have ha := (List.mem_range'_1.1 ha).2
  have hb := (List.mem_range'_1.1 hb).2
  have hsize : Int32.size = 4294967296 := rfl
  rw [Int32.lt_iff_toInt_lt, Int32.toInt_ofNat_of_lt (by omega), Int32.toInt_ofNat_of_lt (by omega)]
  exact Int.ofNat_lt.2 hlt

theorem nodup_ofNat {n : Nat} (h : n ≤ Int32.size) : ((List.range' 0 n).map Int32.ofNat).Nodup := by
  refine (List.nodup_range' 1).map_on fun a ha b hb he ↦ ?_
  have ha := (List.mem_range'_1.1 ha).2
  have hb := (List.mem_range'_1.1 hb).2
  have hsize : Int32.size = 4294967296 := rfl
  have hbits := congrArg (fun n : Int32 ↦ n.toBitVec.toNat) he
  simp at hbits
  omega

def unreadyJobs : ModuleDecl where
  name := "Unready"
  types := [⟨⟨"App", "Jobs", none, []⟩,
    [{ mixedJobs.work with name := "Fetch", attributes := [asyncAttribute] }]⟩]

/-- Runs that take a number each and report none move the count on. -/
theorem reported_session_replicate {module : ModuleDecl} {report : Report}
    (hrun : ∀ next, p.run module next = ⟨.ok report, module, next + 1⟩)
    (hnone : report.entries.filterMap (fun e ↦ e.fate.number?) = []) (n : Nat) (next : Int32)
    (modules : List ModuleDecl) :
    (p.session next (.replicate n module ++ modules)).flatMap Job.reported =
      (p.session (next + .ofNat n) modules).flatMap Job.reported := by
  induction n generalizing next with
  | zero => simp
  | succ n ih =>
    rw [List.replicate_succ, List.cons_append, session, List.flatMap_cons]
    simp only [hrun, ih]
    rw [Job.reported]
    simp only [hnone, List.nil_append]
    rw [Int32.add_assoc, Nat.add_comm n 1, Int32.ofNat_add]
    rfl

/-- The one method takes a number and then fails, since its step has no instructions. -/
def idleJobs : ModuleDecl where
  name := "Idle"
  types := [⟨⟨"App", "Jobs", none, []⟩, [
    { mixedJobs.work with
      name := "Fetch"
      attributes := [asyncAttribute]
      machine := some ⟨⟨"App", "<Fetch>d__1"⟩,
        [{ mixedJobs.work with name := "MoveNext", result := .void, body := some .empty }]⟩ }]⟩]

/-- The step branches to an instruction that is not there, by a label that is given to one of the
new ones. -/
def strayJobs : ModuleDecl where
  name := "Stray"
  types := [⟨⟨"App", "Jobs", none, []⟩, [
    { mixedJobs.work with
      name := "Fetch"
      attributes := [asyncAttribute]
      machine := some ⟨⟨"App", "<Fetch>d__1"⟩,
        [{ mixedJobs.work with name := "MoveNext", result := .void, body := some step }]⟩ }]⟩]
where
  step : Body := ⟨[⟨⟨0⟩, .ldc 7⟩, ⟨⟨1⟩, .branch .always .long ⟨8⟩⟩, ⟨⟨2⟩, .ldarg 0⟩,
    ⟨⟨3⟩, .ldfld ⟨⟨"App", "Step"⟩, "<>1__state", .int32⟩⟩, ⟨⟨4⟩, .pop⟩,
    ⟨⟨5⟩, .branch .leave .long ⟨6⟩⟩, ⟨⟨6⟩, .ret⟩], [], [], false, 7⟩

end Plan

end CilSpan
