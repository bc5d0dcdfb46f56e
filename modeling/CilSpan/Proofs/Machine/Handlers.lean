import CilSpan.Proofs.Machine.Fits

namespace CilSpan

variable {σ : Type}

/-- A cleanup handler that is entered: where it begins, and what was pending before. -/
structure HandlerEntry where
  start : Nat
  below : List Pending
deriving DecidableEq, Repr

namespace Program

def ending (p : Program σ) (s : State σ) : Bool :=
  p.body.code[s.position]?.any fun i ↦ i.op = .endfinally

/-- What an instruction leaves pending before it puts anything there: an `endfinally` takes what
comes first. -/
def kept (p : Program σ) (s : State σ) : List Pending :=
  if p.ending s then s.pending.tail else s.pending

def entered? (p : Program σ) (s t : State σ) : Option HandlerEntry :=
  if t.pending = p.kept s then none else some ⟨t.position, p.kept s⟩

def entries (p : Program σ) : Nat → State σ → List HandlerEntry
  | 0, _ => []
  | n + 1, s =>
    match p.step s with
    | .next t | .jumped t => (p.entered? s t).toList ++ p.entries n t
    | .ended _ _ | .broken _ _ => []

/-- The handler entered at `e` comes in `n` steps to its own `endfinally`, at `u`: the first one
that finds pending just what was pending at `e`. -/
structure Closes (p : Program σ) (n : Nat) (e u : State σ) : Prop where
  steps : p.Steps n e u
  ending : p.ending u = true
  pending : u.pending = e.pending
  own : ∀ m v, m < n → p.Steps m e v → p.ending v = true → v.pending ≠ e.pending

def Orderly (p : Program σ) : Nat → State σ → Prop
  | 0, _ => True
  | n + 1, e => ∃ k u, p.Closes k e u ∧ u.stack = [] ∧ ∀ v, (p.step u).Goes v → p.Orderly n v

/-- The run from `s` to `t`, of `k` steps, is made of handlers. Those that it enters with just `base`
pending are the ones given, in this order, and on the way something always comes before it. -/
structure Crosses (p : Program σ) (k : Nat) (s : State σ) (base : List Pending)
    (handlers : List Nat) (t : State σ) : Prop where
  steps : p.Steps k s t
  entries : ((p.entries k s).filter (·.below = base)).map (·.start) = handlers
  meanwhile : ∀ m v, 0 < m → m < k → p.Steps m s v → ∃ x, (x :: base) <:+ v.pending

/-- In `k` steps from `s` the machine comes to the target with an empty evaluation stack and with
`base` pending. The handlers that it enters with just this pending are the ones given, in this
order, and on the way something always comes before it. -/
structure Arrives (p : Program σ) (k : Nat) (s : State σ) (base : List Pending)
    (handlers : List Nat) (target : Nat) (t : State σ) : Prop where
  steps : p.Steps k s t
  entries : ((p.entries k s).filter (·.below = base)).map (·.start) = handlers
  meanwhile : ∀ m v, 0 < m → m < k → p.Steps m s v → ∃ x, (x :: base) <:+ v.pending
  position : t.position = target
  pending : t.pending = base
  stack : t.stack = []

variable {p : Program σ} {i : Instr} {s t e u : State σ} {k m n : Nat} {base : List Pending}

theorem pending_depart {target : Nat} {handlers : List Nat}
    (h : s.depart target handlers = .jumped t) :
    t.pending = s.pending ∨ ∃ x, t.pending = x :: s.pending := by
  cases handlers with
  | nil =>
    injection h with h
    exact .inl (h ▸ rfl)
  | cons first handlers =>
    injection h with h
    subst h
    exact .inr ⟨_, rfl⟩

theorem pending_raise {exception : Value} {origin first : Nat}
    (h : p.raise exception origin first s = .jumped t) :
    t.pending = s.pending ∨ ∃ x, t.pending = x :: s.pending := by
  unfold raise at h
  split at h
  · cases h
  · split at h
    · injection h with h
      subst h
      exact .inr ⟨_, rfl⟩
    · injection h with h
      exact .inl (h ▸ rfl)

theorem ending_iff (hi : p.body.code[s.position]? = some i) :
    p.ending s = true ↔ i.op = .endfinally := by
  rw [ending, hi, Option.any_some, decide_eq_true_eq]

theorem ending_eq_false (hi : p.body.code[s.position]? = some i) (hop : i.op ≠ .endfinally) :
    p.ending s = false :=
  Bool.eq_false_iff.2 (mt (ending_iff hi).1 hop)

theorem kept_of_ending (h : p.ending s = true) : p.kept s = s.pending.tail := if_pos h

theorem kept_of_not_ending (h : p.ending s = false) : p.kept s = s.pending := by
  rw [kept, h]
  exact if_neg Bool.false_ne_true

theorem pending_of_endfinally {l : Label} (h : (p.endfinally l s).Goes t) :
    t.pending = s.pending.tail ∨ ∃ x, t.pending = x :: s.pending.tail := by
  unfold endfinally at h
  split at h
  · exact absurd h Turn.not_goes_broken
  · rename_i target handlers rest hp
    obtain ⟨v, hv, -⟩ := exists_depart { s with pending := rest } target handlers
    rw [hv, Turn.goes_jumped] at h
    rw [hp]
    exact pending_depart (h ▸ hv)
  · rename_i exception origin nextZone rest hp
    rw [hp]
    obtain ⟨v, hv, -⟩ | hv := p.exists_raise exception origin nextZone { s with pending := rest }
    · rw [hv, Turn.goes_jumped] at h
      exact pending_raise (h ▸ hv)
    · rw [hv] at h
      exact absurd h Turn.not_goes_ended

theorem pending_of_exec (hop : i.op ≠ .endfinally) (h : (p.exec i s).Goes t) :
    t.pending = s.pending ∨ ∃ x, t.pending = x :: s.pending := by
  have heff := effect_exec p i s
  generalize p.exec i s = turn at heff h
  cases heff with
  | next hf | branch hf =>
    simp only [Turn.goes_next, Turn.goes_jumped] at h
    exact .inl (h ▸ hf.pending)
  | leave hf =>
    obtain ⟨v, hv, -⟩ := exists_depart _ _ _
    rw [hv, Turn.goes_jumped] at h
    exact hf.pending ▸ pending_depart (h ▸ hv)
  | raise hf =>
    obtain ⟨v, hv, -⟩ | hv := exists_raise p _ _ _ _
    · rw [hv, Turn.goes_jumped] at h
      exact hf.pending ▸ pending_raise (h ▸ hv)
    · rw [hv] at h
      exact absurd h Turn.not_goes_ended
  | resume hend | unwind hend => exact absurd hend hop
  | returned => exact absurd h Turn.not_goes_ended
  | broken => exact absurd h Turn.not_goes_broken

/-- A step puts at most one thing onto what it keeps. -/
theorem pending_of_goes (h : (p.step s).Goes t) :
    t.pending = p.kept s ∨ ∃ x, t.pending = x :: p.kept s := by
  obtain ⟨i, hi⟩ := exists_of_step_goes h
  have hend := ending_iff hi
  rw [step_eq_exec hi] at h
  obtain ⟨r, hr, hpending⟩ : ∃ r : State σ,
      { s with path := ⟨s.position, i.label, s.stack⟩ :: s.path } = r ∧ r.pending = s.pending :=
    ⟨_, rfl, rfl⟩
  rw [hr] at h
  by_cases hop : i.op = .endfinally
  · rw [kept_of_ending (hend.2 hop), ← hpending]
    obtain ⟨l, op⟩ := i
    obtain rfl : op = .endfinally := hop
    exact pending_of_endfinally h
  · rw [kept_of_not_ending (ending_eq_false hi hop), ← hpending]
    exact pending_of_exec hop h

theorem entries_of_goes (h : (p.step s).Goes t) (n : Nat) :
    p.entries (n + 1) s = (p.entered? s t).toList ++ p.entries n t := by
  obtain h | h := h <;> simp only [entries, h]

theorem entries_add (h : p.Steps m s t) (n : Nat) :
    p.entries (m + n) s = p.entries m s ++ p.entries n t := by
  induction h with
  | zero => rw [Nat.zero_add, entries, List.nil_append]
  | @cons m s t u hgo _ ih =>
    rw [Nat.add_right_comm, entries_of_goes hgo, ih, entries_of_goes hgo, List.append_assoc]

/-- While no `endfinally` takes what came first in the beginning, nothing below it is touched. -/
theorem Steps.keeps (h : p.Steps n e u) (hbase : base <:+ e.pending)
    (hown : ∀ m v, m < n → p.Steps m e v → p.ending v = true → v.pending ≠ base) :
    base <:+ u.pending ∧ ∀ x ∈ p.entries n e, base <:+ x.below := by
  induction h with
  | zero => exact ⟨hbase, List.forall_mem_nil _⟩
  | @cons n e t u hgo _ ih =>
    have hkept : base <:+ p.kept e := by
      cases hend : p.ending e with
      | false => rwa [kept_of_not_ending hend]
      | true =>
        obtain ⟨before, hbefore⟩ := hbase
        rw [kept_of_ending hend]
        -- What the `endfinally` takes is not the first of `base` but something before it.
        cases before with
        | nil => exact absurd hbefore.symm (hown 0 e (Nat.succ_pos n) (.zero e) hend)
        | cons x before =>
          rw [← hbefore]
          exact ⟨before, rfl⟩
    have hnext : base <:+ t.pending := by
      obtain ht | ⟨x, ht⟩ := pending_of_goes hgo
      · rwa [ht]
      · rw [ht]
        exact hkept.trans (List.suffix_cons x _)
    obtain ⟨hu, hentries⟩ := ih hnext fun m v hm hv ↦ hown (m + 1) v (by omega) (.cons hgo hv)
    refine ⟨hu, fun x hx ↦ ?_⟩
    rw [entries_of_goes hgo, List.mem_append, Option.mem_toList] at hx
    obtain hx | hx := hx
    · unfold entered? at hx
      split at hx
      · cases hx
      · exact Option.some_inj.1 hx ▸ hkept
    · exact hentries x hx

theorem Steps.after (h : p.Steps m s t) (h' : p.Steps (m + n) s u) : p.Steps n t u := by
  induction h with
  | zero => rwa [Nat.zero_add] at h'
  | @cons m s t _ hgo _ ih =>
    rw [Nat.add_right_comm] at h'
    cases h' with
    | cons hgo' h' => exact ih (goes_unique hgo hgo' ▸ h')

theorem Steps.unique (h : p.Steps n s t) (h' : p.Steps n s u) : t = u := by
  cases h.after (n := 0) h' with
  | zero => rfl

namespace Closes

variable (h : p.Closes k e u)
include h

theorem suffix {v : State σ} (hm : m ≤ k) (hv : p.Steps m e v) : e.pending <:+ v.pending :=
  (hv.keeps (List.suffix_refl _) fun m' v' hm' ↦ h.own m' v' (Nat.lt_of_lt_of_le hm' hm)).1

/-- All handlers that are entered in between are entered with more pending. -/
theorem filter_entries {x : Pending} (he : e.pending = x :: base) :
    (p.entries k e).filter (·.below = base) = [] := by
  refine List.filter_eq_nil_iff.2 fun y hy hbelow ↦ ?_
  have hsuffix := (h.steps.keeps (List.suffix_refl _) h.own).2 y hy
  rw [of_decide_eq_true hbelow, he] at hsuffix
  have hle := hsuffix.length_le
  rw [List.length_cons] at hle
  omega

end Closes

namespace Crosses

variable {handlers : List Nat}

theorem zero (s : State σ) (base : List Pending) : p.Crosses 0 s base [] s :=
  ⟨.zero s, rfl, fun m v hm hk ↦ by omega⟩

theorem one (hgo : (p.step s).Goes t) (hsame : t.pending = p.kept s) (base : List Pending) :
    p.Crosses 1 s base [] t := by
  refine ⟨.cons hgo (.zero t), ?_, fun m v hm hk ↦ by omega⟩
  rw [entries_of_goes hgo, entered?, if_pos hsame]
  rfl

theorem enter {x : Pending} (hgo : (p.step s).Goes e) (hkept : p.kept s = base)
    (he : e.pending = x :: base) (hclose : p.Closes k e u) (hrest : p.Crosses n u base handlers t) :
    p.Crosses (k + n + 1) s base (e.position :: handlers) t := by
  have hentered : p.entered? s e = some ⟨e.position, base⟩ := by
    have hne : e.pending ≠ p.kept s := by
      rw [he, hkept]
      exact List.cons_ne_self _ _
    rw [entered?, if_neg hne, hkept]
  refine ⟨.cons hgo (hclose.steps.trans hrest.steps), ?_, fun m v hm hlt hv ↦ ?_⟩
  · rw [entries_of_goes hgo, hentered, entries_add hclose.steps, List.filter_append,
      List.filter_append, hclose.filter_entries he, List.nil_append, List.map_append, hrest.entries]
    simp
  · obtain ⟨m, rfl⟩ := Nat.exists_eq_add_of_le' hm
    cases hv with
    | cons hgo' hv =>
      obtain rfl := goes_unique hgo hgo'
      -- The handler is still running until the step after `k`.
      rcases Nat.lt_or_ge k m with hgt | hle
      · obtain ⟨d, rfl⟩ := Nat.exists_eq_add_of_lt hgt
        rw [Nat.add_assoc] at hv
        exact hrest.meanwhile (d + 1) v (Nat.succ_pos d) (by omega) (hclose.steps.after hv)
      · exact ⟨_, he ▸ hclose.suffix hle hv⟩

end Crosses

theorem Arrives.crosses {handlers : List Nat} {target : Nat}
    (h : p.Arrives k s base handlers target t) : p.Crosses k s base handlers t :=
  ⟨h.steps, h.entries, h.meanwhile⟩

theorem Crosses.arrives {handlers : List Nat} (h : p.Crosses k s base handlers t)
    (hpending : t.pending = base) (hstack : t.stack = []) :
    p.Arrives k s base handlers t.position t :=
  ⟨h.steps, h.entries, h.meanwhile, rfl, hpending, hstack⟩

theorem exists_step_of_ending (h : p.ending u = true) :
    ∃ l path, p.step u = p.endfinally l { u with path } := by
  obtain ⟨⟨l, op⟩, hi, hop⟩ := (Option.any_eq_true ..).1 h
  obtain rfl : op = .endfinally := of_decide_eq_true hop
  exact ⟨l, ⟨u.position, l, u.stack⟩ :: u.path, by simp only [step, hi, exec]⟩

theorem step_of_ending_leave {target : Nat} {handlers : List Nat} (h : p.ending u = true)
    (hp : u.pending = .leave target handlers :: base) :
    ∃ path, p.step u = State.depart { u with pending := base, path } target handlers := by
  obtain ⟨l, path, hu⟩ := exists_step_of_ending h
  exact ⟨path, hu.trans (by simp only [endfinally, hp])⟩

/-- On its way to a target by way of handlers that come to their ends, the machine enters one after
the other. -/
theorem exists_arrives {r : State σ} {target : Nat} {handlers : List Nat}
    (hr : p.step s = r.depart target handlers) (hkept : p.kept s = r.pending)
    (hstack : r.stack = [])
    (ho : ∀ e, (p.step s).Goes e → p.Orderly handlers.length e) :
    ∃ k t, p.Arrives k s r.pending handlers target t := by
  -- The `endfinally` of one handler takes the machine to the next just as the `leave` itself takes
  -- it to the first, so the induction is on the handlers and `s` is any of these steps.
  induction handlers generalizing s r with
  | nil =>
    have hone := Crosses.one (t := r.jump target) (.inr hr) hkept.symm r.pending
    exact ⟨1, r.jump target, hone.arrives rfl hstack⟩
  | cons first handlers ih =>
    generalize he : ({ r with
      position := first
      pending := .leave target handlers :: r.pending } : State σ) = e at hr
    have hgo : (p.step s).Goes e := .inr (by rw [hr, ← he]; rfl)
    have hfirst : e.pending = .leave target handlers :: r.pending := he ▸ rfl
    obtain rfl : e.position = first := he ▸ rfl
    obtain ⟨k, u, hclose, hempty, hrest⟩ := ho e hgo
    obtain ⟨path, hu⟩ := step_of_ending_leave hclose.ending (hclose.pending.trans hfirst)
    have hkept' : p.kept u = r.pending := by
      rw [kept_of_ending hclose.ending, hclose.pending, hfirst]
      rfl
    obtain ⟨k', t, ht⟩ := ih hu hkept' hempty hrest
    have hall := Crosses.enter hgo hkept hfirst hclose ht.crosses
    exact ⟨_, t, ht.position ▸ hall.arrives ht.pending ht.stack⟩

end Program

namespace Body

def cleanupsBetween (b : Body) (source target : Nat) : List Region :=
  b.regions.filter fun r ↦ r.handler = .cleanup ∧ b.guards r source ∧ ¬b.guards r target

theorem map_handlersBetween {b : Body} {zs : List Zone} (h : List.Forall₂ (Zone.Of b) b.regions zs)
    (source target : Nat) : (handlersBetween zs source target).map some =
      (b.cleanupsBetween source target).map fun r ↦ b.position? r.handlerStart := by
  unfold cleanupsBetween
  generalize b.regions = rs at h
  induction h with
  | nil => rfl
  | @cons r z rs zs hz _ ih =>
    have hleft : (z.cleanup && z.guarded.covers source && !z.guarded.covers target) =
        decide (r.handler = .cleanup ∧ b.guards r source ∧ ¬b.guards r target) := by
      rw [hz.cleanup, guards_eq_covers hz, guards_eq_covers hz, Bool.decide_and, Bool.decide_and]
      simp [Bool.and_assoc]
    simp only [handlersBetween, List.filter_cons, hleft] at ih ⊢
    split
    · simp only [List.map_cons, ih, hz.handlerStart]
    · exact ih

end Body

/-- A `leave` runs the cleanup handlers of the regions that it leaves, in their order and each of
them once, and then goes on at its target with what was pending before. -/
theorem leave_runs_handlers {b : Body} {hooks : Hooks} {args : List Value} {host : Host σ}
    {p : Program σ} {s : State σ} {l target : Label} {width : Width} (hb : b.flaw? = none)
    (hp : Program.ofBody b hooks args host = .ok p)
    (hi : b.code[s.position]? = some ⟨l, .branch .leave width target⟩) :
    ∃ n, b.position? target = some n ∧
      ((∀ e, (p.step s).Goes e → p.Orderly (b.cleanupsBetween s.position n).length e) →
        ∃ k t handlers, handlers.map some =
            (b.cleanupsBetween s.position n).map (fun r ↦ b.position? r.handlerStart) ∧
          p.Arrives k s s.pending handlers n t) := by
  have hsound := Body.flaw?_eq_none.1 hb
  obtain ⟨zs, hzs⟩ := hsound.exists_zones
  obtain rfl := Except.ok.inj ((Body.ofBody_eq_ok hzs hooks args host).symm.trans hp)
  obtain ⟨n, hn⟩ := Body.mem_labels_iff.1
    (hsound.target _ (List.mem_of_getElem? hi) target rfl)
  have hhandlers := Body.map_handlersBetween hzs s.position n
  refine ⟨n, hn, fun ho ↦ ?_⟩
  have hlength := congrArg List.length hhandlers
  rw [List.length_map, List.length_map] at hlength
  rw [← hlength] at ho
  have hstep := Program.step_eq hi (Program.exec_leave (p := ⟨b, zs, hooks, args, host⟩) hn)
  have hkept : Program.kept ⟨b, zs, hooks, args, host⟩ s = s.pending := by
    refine Program.kept_of_not_ending (Bool.eq_false_iff.2 fun hend ↦ ?_)
    cases (Program.ending_iff hi).1 hend
  obtain ⟨k, t, ht⟩ := Program.exists_arrives hstep hkept rfl ho
  exact ⟨k, t, _, hhandlers, ht⟩

/-- A `leave` out of two protected ranges. The inner handler takes a `leave` of its own, out of a
third range, which has a handler too. -/
def nestedCleanups : Body where
  code := [⟨⟨0⟩, .branch .leave .short ⟨6⟩⟩, ⟨⟨1⟩, .branch .leave .short ⟨4⟩⟩, ⟨⟨2⟩, .nop⟩,
    ⟨⟨3⟩, .endfinally⟩, ⟨⟨4⟩, .endfinally⟩, ⟨⟨5⟩, .endfinally⟩, ⟨⟨6⟩, .ret⟩]
  locals := []
  regions := [⟨.cleanup, ⟨1⟩, ⟨2⟩, ⟨2⟩, ⟨4⟩⟩, ⟨.cleanup, ⟨0⟩, ⟨1⟩, ⟨1⟩, ⟨5⟩⟩,
    ⟨.cleanup, ⟨0⟩, ⟨5⟩, ⟨5⟩, ⟨6⟩⟩]
  initLocals := false
  next := 7

def nestedProgram : Program Unit where
  body := nestedCleanups
  zones := [⟨true, ⟨1, 2⟩, ⟨2, 4⟩⟩, ⟨true, ⟨0, 1⟩, ⟨1, 5⟩⟩, ⟨true, ⟨0, 5⟩, ⟨5, 6⟩⟩]
  hooks := .on ⟨"App", "Tracer"⟩
  args := []
  host := .idle

def nestedState (position : Nat) (pending : List Pending) (path : List Nat) : State Unit where
  position
  stack := []
  slots := []
  pending
  heap := .empty
  world := ()
  path := path.map fun n ↦ ⟨n, ⟨.ofNat n⟩, []⟩
  events := []

theorem leave_runs_handlers_nested : nestedCleanups.flaw? = none ∧
    ∃ k t, nestedProgram.Arrives k (nestedState 0 [] []) [] [1, 5] 6 t := by
  have hsound : nestedCleanups.flaw? = none := by decide +kernel
  let first := nestedState 1 [.leave 6 [5]] [0]
  let inner := nestedState 2 [.leave 4 [], .leave 6 [5]] [1, 0]
  let back := nestedState 3 [.leave 4 [], .leave 6 [5]] [2, 1, 0]
  let own := nestedState 4 [.leave 6 [5]] [3, 2, 1, 0]
  let second := nestedState 5 [.leave 6 []] [4, 3, 2, 1, 0]
  have hfirst : (nestedProgram.step (nestedState 0 [] [])).Goes first := .inr rfl
  have hinner : nestedProgram.Steps 1 first inner := .jumped rfl
  have hback : nestedProgram.Steps 2 first back := hinner.trans (.next rfl)
  have hown : nestedProgram.Steps 3 first own := hback.trans (.jumped rfl)
  have hsecond : (nestedProgram.step own).Goes second := .inr rfl
  have hclose : nestedProgram.Closes 3 first own := by
    refine ⟨hown, rfl, rfl, fun m v hm hv hend ↦ ?_⟩
    obtain rfl | rfl | rfl : m = 0 ∨ m = 1 ∨ m = 2 := by omega
    · obtain rfl := (Program.Steps.zero first).unique hv
      cases hend
    · obtain rfl := hinner.unique hv
      cases hend
    · obtain rfl := hback.unique hv
      exact nofun
  have hclose' : nestedProgram.Closes 0 second second :=
    ⟨.zero second, rfl, rfl, fun m v hm ↦ absurd hm (Nat.not_lt_zero m)⟩
  obtain ⟨n, hn, hall⟩ := leave_runs_handlers (s := nestedState 0 [] []) hsound
    (show Program.ofBody nestedCleanups (.on ⟨"App", "Tracer"⟩) [] .idle = .ok nestedProgram
      from rfl) rfl
  obtain rfl : 6 = n := Option.some_inj.1 hn
  obtain ⟨k, t, handlers, hhandlers, ht⟩ := hall fun e he ↦ by
    obtain rfl := Program.goes_unique hfirst he
    exact ⟨3, own, hclose, rfl, fun v hv ↦ by
      obtain rfl := Program.goes_unique hsecond hv
      exact ⟨0, second, hclose', rfl, fun _ _ ↦ trivial⟩⟩
  have hstarts : handlers.map some = [1, 5].map some := hhandlers.trans (by decide +kernel)
  obtain rfl := List.map_injective_iff.2 (fun _ _ h ↦ Option.some.inj h) hstarts
  exact ⟨hsound, k, t, ht⟩

end CilSpan
