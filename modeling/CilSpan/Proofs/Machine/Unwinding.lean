import CilSpan.Proofs.Machine.Handlers

namespace CilSpan

variable {σ : Type}

def rescuer? (zones : List Zone) (origin : Nat) : Option Zone :=
  zones.find? fun z ↦ !z.cleanup && z.guarded.covers origin

def handlersAhead (zones : List Zone) (origin : Nat) : List Nat :=
  ((zones.takeWhile fun z ↦ z.cleanup || !z.guarded.covers origin).filter
    fun z ↦ z.cleanup && z.guarded.covers origin).map fun z ↦ z.handler.start

section

variable {zones skipped : List Zone} {z : Zone} {origin first number : Nat}

/-- Where the search goes on, by the zones that are left. -/
theorem drop_of_guardian? (h : guardian? zones origin first = some (z, number)) :
    ∃ skipped, zones.drop first = skipped ++ z :: zones.drop (number + 1) ∧
      ∀ y ∈ skipped, y.guarded.covers origin = false := by
  obtain ⟨-, as, bs, hsplit, has⟩ := List.find?_eq_some_iff_append.1 h
  have hfst : zones.drop first = as.map Prod.fst ++ z :: bs.map Prod.fst := by
    have hmap := congrArg (List.map Prod.fst) hsplit
    rwa [List.map_drop, List.zipIdx_map_fst, List.map_append, List.map_cons] at hmap
  have hnumber : number = first + as.length := by
    have hget := congrArg (·[as.length]?) hsplit
    simp only [List.getElem?_drop, List.getElem?_zipIdx, List.getElem?_append_right (Nat.le_refl _),
      Nat.sub_self, List.getElem?_cons_zero, Option.map_eq_some_iff] at hget
    obtain ⟨y, -, hy⟩ := hget
    have hsnd := congrArg Prod.snd hy
    omega
  refine ⟨as.map Prod.fst, ?_, fun y hy ↦ ?_⟩
  · have hrest : zones.drop (number + 1) = bs.map Prod.fst := by
      rw [hnumber, Nat.add_assoc, ← List.drop_drop, hfst, List.drop_append]
      simp
    rw [hrest, hfst]
  · obtain ⟨x, hx, rfl⟩ := List.mem_map.1 hy
    simpa using has x hx

theorem not_covers_of_guardian? (h : guardian? zones origin first = none) :
    ∀ z ∈ zones.drop first, z.guarded.covers origin = false := by
  intro z hz
  rw [← List.zipIdx_map_fst 0 zones, ← List.map_drop] at hz
  obtain ⟨x, hx, rfl⟩ := List.mem_map.1 hz
  simpa using List.find?_eq_none.1 h x hx

theorem handlersAhead_skip (h : ∀ y ∈ skipped, y.guarded.covers origin = false) :
    handlersAhead (skipped ++ zones) origin = handlersAhead zones origin := by
  have htake : ∀ y ∈ skipped, (y.cleanup || !y.guarded.covers origin) = true := by
    intro y hy
    rw [h y hy, Bool.not_false, Bool.or_true]
  have hnil : (skipped.filter fun y ↦ y.cleanup && y.guarded.covers origin) = [] := by
    refine List.filter_eq_nil_iff.2 fun y hy ↦ ?_
    rw [h y hy, Bool.and_false]
    exact Bool.false_ne_true
  rw [handlersAhead, List.takeWhile_append_of_pos htake, List.filter_append, hnil, List.nil_append,
    handlersAhead]

theorem rescuer?_skip (h : ∀ y ∈ skipped, y.guarded.covers origin = false) :
    rescuer? (skipped ++ zones) origin = rescuer? zones origin := by
  have hnone : (skipped.find? fun y ↦ !y.cleanup && y.guarded.covers origin) = none := by
    refine List.find?_eq_none.2 fun y hy ↦ ?_
    rw [h y hy, Bool.and_false]
    exact Bool.false_ne_true
  rw [rescuer?, List.find?_append, hnone, Option.none_or, rescuer?]

theorem handlersAhead_cons_cleanup (hz : z.cleanup = true) (hcov : z.guarded.covers origin = true) :
    handlersAhead (z :: zones) origin = z.handler.start :: handlersAhead zones origin := by
  simp only [handlersAhead, List.takeWhile_cons, hz, Bool.true_or, if_true, List.filter_cons, hcov,
    Bool.true_and, List.map_cons]

theorem rescuer?_cons_cleanup (hz : z.cleanup = true) :
    rescuer? (z :: zones) origin = rescuer? zones origin := by
  simp only [rescuer?, List.find?_cons, hz, Bool.not_true, Bool.false_and]

theorem handlersAhead_cons_rescue (hz : z.cleanup = false) (hcov : z.guarded.covers origin = true) :
    handlersAhead (z :: zones) origin = [] := by
  simp [handlersAhead, hz, hcov]

theorem rescuer?_cons_rescue (hz : z.cleanup = false) (hcov : z.guarded.covers origin = true) :
    rescuer? (z :: zones) origin = some z := by
  simp only [rescuer?, List.find?_cons, hz, hcov, Bool.not_false, Bool.true_and]

end

namespace Body

def rescuer? (b : Body) (origin : Nat) : Option Region :=
  b.regions.find? fun r ↦ r.handler ≠ .cleanup ∧ b.guards r origin

def cleanupsAhead (b : Body) (origin : Nat) : List Region :=
  (b.regions.takeWhile fun r ↦ ¬(r.handler ≠ .cleanup ∧ b.guards r origin)).filter
    fun r ↦ r.handler = .cleanup ∧ b.guards r origin

end Body

namespace Program

/-- The ways in which the instruction about to be executed raises an exception. -/
inductive Raises (p : Program σ) (s : State σ) : Value → Prop
  | throw {l : Label} {exception : Value} {stack : List Value}
      (hi : p.body.code[s.position]? = some ⟨l, .throw⟩) (hs : s.stack = exception :: stack) :
      Raises p s exception
  | call {i : Instr} {callee : Callee} {args stack : List Value} {exception : Value} {heap : Heap}
      {world : σ} (hi : p.body.code[s.position]? = some i) (hop : i.op.callee? = some callee)
      (ha : popArgs? s.stack callee.arity = some (args, stack)) (hk : p.hooks.hook? callee = none)
      (hc : p.host.call callee args s.heap s.world = (.raise exception, heap, world)) :
      Raises p s exception
  | construct {l : Label} {ctor : Callee} {args stack : List Value} {exception : Value}
      {heap : Heap} {world : σ} (hi : p.body.code[s.position]? = some ⟨l, .newobj ctor⟩)
      (ha : popArgs? s.stack ctor.params.length = some (args, stack))
      (hc : p.host.call ctor (.object s.heap.next :: args) s.heap.alloc.2 s.world =
        (.raise exception, heap, world)) : Raises p s exception
  | load {l : Label} {field : FieldName} {stack : List Value}
      (hi : p.body.code[s.position]? = some ⟨l, .ldfld field⟩) (hs : s.stack = .null :: stack) :
      Raises p s nullReference
  | store {l : Label} {field : FieldName} {value : Value} {stack : List Value}
      (hi : p.body.code[s.position]? = some ⟨l, .stfld field⟩)
      (hs : s.stack = value :: .null :: stack) : Raises p s nullReference

def Settles (p : Program σ) : Nat → State σ → Prop
  | 0, _ => True
  | n + 1, e => ∃ k u, p.Closes k e u ∧ ∀ v, (p.step u).Goes v → p.Settles n v

variable {p : Program σ} {s u : State σ} {exception : Value}

theorem exec_throw {l : Label} {stack : List Value} (hs : s.stack = exception :: stack) :
    p.exec ⟨l, .throw⟩ s = p.raise exception s.position 0 { s with stack } := by
  obtain ⟨position, _, slots, pending, heap, world, path, events⟩ := s
  subst hs
  rfl

theorem Raises.exists_step (h : p.Raises s exception) :
    p.ending s = false ∧ ∃ r : State σ, p.step s = p.raise exception s.position 0 r ∧
      r.pending = s.pending := by
  cases h with
  | throw hi hs => exact ⟨ending_eq_false hi nofun, _, step_eq hi (exec_throw hs), rfl⟩
  | @call i callee _ _ _ _ _ hi hop ha hk hc =>
    obtain ⟨l, op⟩ := i
    have hexec (t : State σ) : p.exec ⟨l, op⟩ t = p.invoke callee l t := by
      cases op <;> cases hop <;> rfl
    have hne : op ≠ .endfinally := by
      rintro rfl
      cases hop
    exact ⟨ending_eq_false hi hne, _, step_eq hi ((hexec _).trans (invoke_raise ha hk hc)), rfl⟩
  | construct hi ha hc =>
    exact ⟨ending_eq_false hi nofun, _, step_eq hi (construct_raise ha hc), rfl⟩
  | load hi hs => exact ⟨ending_eq_false hi nofun, _, step_eq hi (load_null hs), rfl⟩
  | store hi hs => exact ⟨ending_eq_false hi nofun, _, step_eq hi (store_null hs), rfl⟩

theorem step_of_ending_unwind {origin nextZone : Nat} {base : List Pending} (h : p.ending u = true)
    (hp : u.pending = .unwind exception origin nextZone :: base) :
    ∃ path, p.step u = p.raise exception origin nextZone { u with pending := base, path } := by
  obtain ⟨l, path, hu⟩ := exists_step_of_ending h
  exact ⟨path, hu.trans (by simp only [endfinally, hp])⟩

/-- An exception whose handlers come to their ends runs those that are ahead of it, one after the
other, and is then rescued or leaves the body. -/
theorem exists_unwinds {s r : State σ} {origin first : Nat}
    (hr : p.step s = p.raise exception origin first r) (hkept : p.kept s = r.pending)
    (ho : ∀ e, (p.step s).Goes e →
      p.Settles (handlersAhead (p.zones.drop first) origin).length e) :
    ∃ k u, p.Crosses k s r.pending (handlersAhead (p.zones.drop first) origin) u ∧
      match rescuer? (p.zones.drop first) origin with
      | some z => u.position = z.handler.start ∧ u.pending = r.pending ∧ u.stack = [exception]
      | none => ∃ t, p.step u = .ended (.threw exception) t := by
  cases hg : guardian? p.zones origin first with
  | none =>
    have hskip := not_covers_of_guardian? hg
    rw [← List.append_nil (p.zones.drop first), handlersAhead_skip hskip, rescuer?_skip hskip]
    simp only [raise, hg] at hr
    exact ⟨0, s, .zero s _, r, hr⟩
  | some found =>
    obtain ⟨z, number⟩ := found
    obtain ⟨skipped, hdrop, hskip⟩ := drop_of_guardian? hg
    obtain ⟨hz, hle, hcov⟩ := guardian?_some hg
    rw [hdrop, handlersAhead_skip hskip] at ho
    rw [hdrop, handlersAhead_skip hskip, rescuer?_skip hskip]
    cases hcl : z.cleanup with
    | false =>
      rw [handlersAhead_cons_rescue hcl hcov, rescuer?_cons_rescue hcl hcov]
      simp only [raise, hg, hcl] at hr
      exact ⟨1, _, .one (.inr hr) hkept.symm _, rfl, rfl, rfl⟩
    | true =>
      rw [handlersAhead_cons_cleanup hcl hcov] at ho
      rw [handlersAhead_cons_cleanup hcl hcov, rescuer?_cons_cleanup hcl]
      simp only [raise, hg, hcl, if_true] at hr
      generalize he : ({ r with
        position := z.handler.start
        stack := []
        pending := .unwind exception origin (number + 1) :: r.pending } : State σ) = e at hr
      have hgo : (p.step s).Goes e := .inr hr
      have hfirst : e.pending = .unwind exception origin (number + 1) :: r.pending := he ▸ rfl
      have hstart : e.position = z.handler.start := he ▸ rfl
      obtain ⟨k, u, hclose, hrest⟩ := ho e hgo
      -- The `endfinally` of this handler takes the search up again behind its zone.
      obtain ⟨path, hu⟩ := step_of_ending_unwind hclose.ending (hclose.pending.trans hfirst)
      have hkept' : p.kept u = r.pending := by
        rw [kept_of_ending hclose.ending, hclose.pending, hfirst]
        rfl
      have hlt : number < p.zones.length := (List.getElem?_eq_some_iff.1 hz).1
      obtain ⟨k', t, hcross, hend⟩ := exists_unwinds hu hkept' hrest
      exact ⟨_, t, hstart ▸ hcross.enter hgo hkept hfirst hclose, hend⟩
termination_by p.zones.length - first

end Program

namespace Body

variable {b : Body} {zs : List Zone}

theorem map_handlersAhead (h : List.Forall₂ (Zone.Of b) b.regions zs) (origin : Nat) :
    (handlersAhead zs origin).map some =
      (b.cleanupsAhead origin).map fun r ↦ b.position? r.handlerStart := by
  unfold cleanupsAhead
  generalize b.regions = rs at h
  induction h with
  | nil => rfl
  | @cons r z rs zs hz _ ih =>
    have hguard := guards_eq_covers hz origin
    have hcleanup := hz.cleanup
    cases hcov : z.guarded.covers origin with
    | false =>
      rw [← List.singleton_append (l := zs), handlersAhead_skip (by simpa using hcov), ih]
      simp [hguard, hcov]
    | true =>
      cases hcl : z.cleanup with
      | false =>
        rw [handlersAhead_cons_rescue hcl hcov]
        simp [hguard, hcov, of_decide_eq_false (hcl ▸ hcleanup).symm]
      | true =>
        rw [handlersAhead_cons_cleanup hcl hcov, List.map_cons, ih]
        simp [hguard, hcov, of_decide_eq_true (hcl ▸ hcleanup).symm, hz.handlerStart]

theorem rescuer?_zones (h : List.Forall₂ (Zone.Of b) b.regions zs) (origin : Nat) :
    (CilSpan.rescuer? zs origin).map (fun z ↦ some z.handler.start) =
      (b.rescuer? origin).map fun r ↦ b.position? r.handlerStart := by
  unfold rescuer?
  generalize b.regions = rs at h
  induction h with
  | nil => rfl
  | @cons r z rs zs hz _ ih =>
    have hsame : (!z.cleanup && z.guarded.covers origin) =
        decide (r.handler ≠ .cleanup ∧ b.guards r origin) := by
      rw [hz.cleanup, ← guards_eq_covers hz]
      simp [Bool.decide_and]
    simp only [CilSpan.rescuer?, List.find?_cons, hsame] at ih ⊢
    split
    · exact congrArg some hz.handlerStart.symm
    · exact ih

end Body

/-- An exception runs the cleanup handlers that it comes by, in their order and each of them once.
Then the rescue handler begins, with nothing but the exception on its stack and with what was
pending before; or the exception leaves the body if no region rescues it. -/
theorem raise_runs_handlers {b : Body} {hooks : Hooks} {args : List Value} {host : Host σ}
    {p : Program σ} {s : State σ} {exception : Value} (hb : b.flaw? = none)
    (hp : Program.ofBody b hooks args host = .ok p) (hr : p.Raises s exception)
    (ho : ∀ e, (p.step s).Goes e → p.Settles (b.cleanupsAhead s.position).length e) :
    ∃ k u handlers, handlers.map some =
        (b.cleanupsAhead s.position).map (fun r ↦ b.position? r.handlerStart) ∧
      p.Crosses k s s.pending handlers u ∧
      match b.rescuer? s.position with
      | some r => b.position? r.handlerStart = some u.position ∧ u.pending = s.pending ∧
          u.stack = [exception]
      | none => ∃ t, p.Ends (k + 1) s (.ok (.threw exception)) t := by
  obtain ⟨zs, hzs⟩ := (Body.flaw?_eq_none.1 hb).exists_zones
  obtain rfl := Except.ok.inj ((Body.ofBody_eq_ok hzs hooks args host).symm.trans hp)
  obtain ⟨hend, r, hstep, hpending⟩ := hr.exists_step
  have hhandlers := Body.map_handlersAhead hzs s.position
  have hlength := congrArg List.length hhandlers
  rw [List.length_map, List.length_map] at hlength
  rw [← hlength] at ho
  obtain ⟨k, u, hcross, hlast⟩ :=
    Program.exists_unwinds hstep ((Program.kept_of_not_ending hend).trans hpending.symm) ho
  rw [hpending] at hcross hlast
  refine ⟨k, u, _, hhandlers, hcross, ?_⟩
  have hrescuer := Body.rescuer?_zones hzs s.position
  rw [List.drop_zero] at hlast
  cases hz : rescuer? zs s.position with
  | none =>
    rw [hz, Option.map_none, eq_comm, Option.map_eq_none_iff] at hrescuer
    rw [hz] at hlast
    rw [hrescuer]
    obtain ⟨t, ht⟩ := hlast
    exact ⟨t, hcross.steps.ends (.ended ht)⟩
  | some z =>
    rw [hz, Option.map_some, eq_comm, Option.map_eq_some_iff] at hrescuer
    obtain ⟨c, hc, hstart⟩ := hrescuer
    rw [hz] at hlast
    rw [hc]
    exact ⟨hlast.1 ▸ hstart, hlast.2⟩

/-- A `throw` out of two protected ranges, and out of a third whose handler may rescue it. The inner
handler takes a `leave` of its own, out of a range that has a handler too. -/
def guardedThrow (rescued : Bool) : Body where
  code := [⟨⟨0⟩, .throw⟩, ⟨⟨1⟩, .branch .leave .short ⟨4⟩⟩, ⟨⟨2⟩, .nop⟩, ⟨⟨3⟩, .endfinally⟩,
    ⟨⟨4⟩, .endfinally⟩, ⟨⟨5⟩, .endfinally⟩, ⟨⟨6⟩, .pop⟩, ⟨⟨7⟩, .ret⟩]
  locals := []
  regions := [⟨.cleanup, ⟨1⟩, ⟨2⟩, ⟨2⟩, ⟨4⟩⟩, ⟨.cleanup, ⟨0⟩, ⟨1⟩, ⟨1⟩, ⟨5⟩⟩,
    ⟨.cleanup, ⟨0⟩, ⟨5⟩, ⟨5⟩, ⟨6⟩⟩] ++
      if rescued then [⟨.rescue ⟨"System", "Exception"⟩, ⟨0⟩, ⟨6⟩, ⟨6⟩, ⟨7⟩⟩] else []
  initLocals := false
  next := 8

def throwingProgram (rescued : Bool) : Program Unit where
  body := guardedThrow rescued
  zones := [⟨true, ⟨1, 2⟩, ⟨2, 4⟩⟩, ⟨true, ⟨0, 1⟩, ⟨1, 5⟩⟩, ⟨true, ⟨0, 5⟩, ⟨5, 6⟩⟩] ++
    if rescued then [⟨false, ⟨0, 6⟩, ⟨6, 7⟩⟩] else []
  hooks := .on ⟨"App", "Tracer"⟩
  args := []
  host := .idle

def thrown : Value := .str "disposal failed"

def throwingState : State Unit := { nestedState 0 [] [] with stack := [thrown] }

def unwindingState (position : Nat) (pending : List Pending) (path : List Nat) : State Unit :=
  let s := nestedState position pending path
  { s with path := s.path ++ [⟨0, ⟨0⟩, [thrown]⟩] }

theorem settles_guardedThrow (rescued : Bool) (e : State Unit)
    (he : ((throwingProgram rescued).step throwingState).Goes e) :
    (throwingProgram rescued).Settles 2 e := by
  let first := unwindingState 1 [.unwind thrown 0 2] []
  let inner := unwindingState 2 [.leave 4 [], .unwind thrown 0 2] [1]
  let back := unwindingState 3 [.leave 4 [], .unwind thrown 0 2] [2, 1]
  let own := unwindingState 4 [.unwind thrown 0 2] [3, 2, 1]
  let second := unwindingState 5 [.unwind thrown 0 3] [4, 3, 2, 1]
  generalize hp : throwingProgram rescued = p at *
  have hfirst : (p.step throwingState).Goes first := by subst hp; cases rescued <;> exact .inr rfl
  have hinner : p.Steps 1 first inner := by subst hp; cases rescued <;> exact .jumped rfl
  have hback : p.Steps 2 first back := hinner.trans (by subst hp; exact .next rfl)
  have hown : p.Steps 3 first own := hback.trans (by subst hp; cases rescued <;> exact .jumped rfl)
  have hsecond : (p.step own).Goes second := by subst hp; cases rescued <;> exact .inr rfl
  have hclose : p.Closes 3 first own := by
    refine ⟨hown, hp ▸ rfl, rfl, fun m v hm hv hend ↦ ?_⟩
    obtain rfl | rfl | rfl : m = 0 ∨ m = 1 ∨ m = 2 := by omega
    · obtain rfl := (Program.Steps.zero first).unique hv
      subst hp
      cases hend
    · obtain rfl := hinner.unique hv
      subst hp
      cases hend
    · obtain rfl := hback.unique hv
      exact nofun
  have hclose' : p.Closes 0 second second :=
    ⟨.zero second, hp ▸ rfl, rfl, fun m v hm ↦ absurd hm (Nat.not_lt_zero m)⟩
  obtain rfl := Program.goes_unique hfirst he
  refine ⟨3, own, hclose, fun v hv ↦ ?_⟩
  obtain rfl := Program.goes_unique hsecond hv
  exact ⟨0, second, hclose', fun _ _ ↦ trivial⟩

theorem raise_runs_handlers_nested :
    (guardedThrow true).flaw? = none ∧ (guardedThrow false).flaw? = none ∧
      (∃ k u, (throwingProgram true).Crosses k throwingState [] [1, 5] u ∧ u.position = 6 ∧
        u.pending = [] ∧ u.stack = [thrown]) ∧
      ∃ k u t, (throwingProgram false).Crosses k throwingState [] [1, 5] u ∧
        (throwingProgram false).Ends (k + 1) throwingState (.ok (.threw thrown)) t := by
  have hsound (rescued : Bool) : (guardedThrow rescued).flaw? = none := by
    cases rescued <;> decide +kernel
  have hraises (rescued : Bool) : (throwingProgram rescued).Raises throwingState thrown :=
    .throw rfl rfl
  have hload (rescued : Bool) : Program.ofBody (guardedThrow rescued) (.on ⟨"App", "Tracer"⟩) []
      .idle = .ok (throwingProgram rescued) := by
    cases rescued <;> rfl
  have hahead (rescued : Bool) : ((guardedThrow rescued).cleanupsAhead 0).map
      (fun r ↦ (guardedThrow rescued).position? r.handlerStart) = [1, 5].map some := by
    cases rescued <;> decide +kernel
  have hsettles (rescued : Bool) (e : State Unit)
      (he : ((throwingProgram rescued).step throwingState).Goes e) :
      (throwingProgram rescued).Settles ((guardedThrow rescued).cleanupsAhead 0).length e := by
    have htwo : ((guardedThrow rescued).cleanupsAhead 0).length = 2 := by
      cases rescued <;> decide +kernel
    rw [htwo]
    exact settles_guardedThrow rescued e he
  refine ⟨hsound true, hsound false, ?_, ?_⟩
  · obtain ⟨k, u, handlers, hhandlers, hcross, hlast⟩ :=
      raise_runs_handlers (hsound true) (hload true) (hraises true) (hsettles true)
    obtain rfl := List.map_injective_iff.2 (fun _ _ h ↦ Option.some.inj h)
      (hhandlers.trans (hahead true))
    rw [show (guardedThrow true).rescuer? throwingState.position =
      some ⟨.rescue ⟨"System", "Exception"⟩, ⟨0⟩, ⟨6⟩, ⟨6⟩, ⟨7⟩⟩ by decide +kernel] at hlast
    exact ⟨k, u, hcross, (Option.some_inj.1 hlast.1).symm, hlast.2⟩
  · obtain ⟨k, u, handlers, hhandlers, hcross, hlast⟩ :=
      raise_runs_handlers (hsound false) (hload false) (hraises false) (hsettles false)
    obtain rfl := List.map_injective_iff.2 (fun _ _ h ↦ Option.some.inj h)
      (hhandlers.trans (hahead false))
    rw [show (guardedThrow false).rescuer? throwingState.position = none by decide +kernel] at hlast
    obtain ⟨t, ht⟩ := hlast
    exact ⟨k, u, t, hcross, ht⟩

end CilSpan
