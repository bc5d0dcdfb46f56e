import CilSpan.Machine.Run
import CilSpan.Proofs.Body.Sound
import CilSpan.Proofs.Machine.Effect
import Mathlib.Data.List.Forall2

namespace CilSpan

variable {σ : Type}

namespace Turn

def Goes (t : Turn σ) (s : State σ) : Prop := t = .next s ∨ t = .jumped s

variable {s t : State σ}

@[simp] theorem goes_next : (next s).Goes t ↔ s = t := by simp [Goes]

@[simp] theorem goes_jumped : (jumped s).Goes t ↔ s = t := by simp [Goes]

@[simp] theorem not_goes_ended {outcome : Outcome} : ¬(ended outcome s).Goes t := by simp [Goes]

@[simp] theorem not_goes_broken {fault : Fault} : ¬(broken fault s).Goes t := by simp [Goes]

end Turn

namespace Program

inductive Steps (p : Program σ) : Nat → State σ → State σ → Prop
  | zero (s : State σ) : Steps p 0 s s
  | cons {n : Nat} {s t u : State σ} :
      (p.step s).Goes t → Steps p n t u → Steps p (n + 1) s u

inductive Ends (p : Program σ) : Nat → State σ → Except Fault Outcome → State σ → Prop
  | ended {s t : State σ} {outcome : Outcome} :
      p.step s = .ended outcome t → Ends p 1 s (.ok outcome) t
  | broken {s t : State σ} {fault : Fault} :
      p.step s = .broken fault t → Ends p 1 s (.error fault) t
  | cons {n : Nat} {s t u : State σ} {r : Except Fault Outcome} :
      (p.step s).Goes t → Ends p n t r u → Ends p (n + 1) s r u

variable {p : Program σ} {n m k : Nat} {s t u : State σ} {r : Except Fault Outcome}

theorem Steps.next (h : p.step s = .next t) : p.Steps 1 s t := .cons (.inl h) (.zero t)

theorem Steps.jumped (h : p.step s = .jumped t) : p.Steps 1 s t := .cons (.inr h) (.zero t)

theorem Steps.trans (h : p.Steps n s t) (h' : p.Steps m t u) : p.Steps (n + m) s u := by
  induction h with
  | zero => simpa only [Nat.zero_add] using h'
  | cons hs h ih => simpa only [Nat.add_right_comm] using Steps.cons hs (ih h')

theorem Steps.ends (h : p.Steps n s t) (h' : p.Ends m t r u) : p.Ends (n + m) s r u := by
  induction h with
  | zero => simpa only [Nat.zero_add] using h'
  | cons hs h ih => simpa only [Nat.add_right_comm] using Ends.cons hs (ih h')

theorem run_of_goes {t' : Turn σ} (h : t'.Goes t) (hs : p.step s = t') (budget left : Nat) :
    p.run budget (left + 1) s = p.run budget left t := by
  obtain rfl | rfl := h <;> simp only [run, hs]

theorem Ends.run_eq (h : p.Ends n s r u) (budget : Nat) {left : Nat} (hn : n ≤ left) :
    p.run budget left s = (r, u) := by
  induction h generalizing left with
  | @ended s t outcome hs =>
    obtain ⟨left, rfl⟩ := Nat.exists_eq_add_of_le' hn
    simp only [run, hs]
  | @broken s t fault hs =>
    obtain ⟨left, rfl⟩ := Nat.exists_eq_add_of_le' hn
    simp only [run, hs]
  | @cons n s t u r hs h ih =>
    obtain ⟨left, rfl⟩ := Nat.exists_eq_add_of_le' (show 1 ≤ left by omega)
    rw [run_of_goes hs rfl, ih (by omega)]

/-- A run uses its budget up or ends. -/
theorem steps_or_ends (p : Program σ) (left : Nat) (s : State σ) :
    (∃ t, p.Steps left s t ∧
      ∀ budget, p.run budget left s = (.error (.budgetExhausted budget), t)) ∨
    ∃ n r t, n ≤ left ∧ p.Ends n s r t := by
  induction left generalizing s with
  | zero => exact .inl ⟨s, .zero s, fun _ ↦ rfl⟩
  | succ left ih =>
    have hgo {t : State σ} (h : (p.step s).Goes t) :
        (∃ u, p.Steps (left + 1) s u ∧
          ∀ budget, p.run budget (left + 1) s = (.error (.budgetExhausted budget), u)) ∨
        ∃ n r u, n ≤ left + 1 ∧ p.Ends n s r u := by
      obtain ⟨u, hu, hr⟩ | ⟨n, r, u, hn, he⟩ := ih t
      · exact .inl ⟨u, .cons h hu, fun budget ↦ (run_of_goes h rfl budget left).trans (hr budget)⟩
      · exact .inr ⟨n + 1, r, u, by omega, .cons h he⟩
    cases hs : p.step s with
    | next t => exact hgo (.inl hs)
    | jumped t => exact hgo (.inr hs)
    | ended outcome t => exact .inr ⟨1, _, t, by omega, .ended hs⟩
    | broken fault t => exact .inr ⟨1, _, t, by omega, .broken hs⟩

theorem goes_unique {t' : Turn σ} (h : t'.Goes s) (h' : t'.Goes t) : s = t := by
  obtain rfl | rfl := h <;> obtain h' | h' := h' <;> injection h'

/-- A run that ends does so from every state that it comes through. -/
theorem Steps.ends_after (hs : p.Steps m s t) (h : p.Ends n s r u) :
    ∃ k, n = m + k ∧ p.Ends k t r u := by
  induction hs generalizing n with
  | zero => exact ⟨n, (Nat.zero_add n).symm, h⟩
  | @cons m s t _ hg _ ih =>
    cases h with
    | ended he => exact absurd (he ▸ hg) Turn.not_goes_ended
    | broken he => exact absurd (he ▸ hg) Turn.not_goes_broken
    | cons hg' h =>
      obtain ⟨k, rfl, he⟩ := ih (goes_unique hg hg' ▸ h)
      exact ⟨k, by omega, he⟩

theorem Ends.pos (h : p.Ends n s r u) : 0 < n := by
  cases h <;> exact Nat.succ_pos _

theorem broken_ne_budgetExhausted {fault : Fault} (h : p.step s = .broken fault t) (budget : Nat) :
    fault ≠ .budgetExhausted budget := by
  unfold step at h
  split at h
  · injection h with h
    exact h ▸ nofun
  · intro hf
    have hl := (shows_exec h).2
    rw [hf] at hl
    exact hl

theorem Ends.ne_budgetExhausted (h : p.Ends n s r u) (budget : Nat) :
    r ≠ .error (.budgetExhausted budget) := by
  induction h with
  | ended => exact nofun
  | broken hs => exact fun he ↦ broken_ne_budgetExhausted hs budget (Except.error.inj he)
  | cons _ _ ih => exact ih

def Finishes (p : Program σ) (n : Nat) (s : State σ) (r : Except Fault Outcome) (heap : Heap)
    (world : σ) (events : List Event) : Prop :=
  ∃ m t, m ≤ n ∧ p.Ends m s r t ∧ t.heap = heap ∧ t.world = world ∧ t.events = events

variable {heap : Heap} {world : σ} {events : List Event}

theorem Steps.finishes (h : p.Steps m s t) (h' : p.Finishes n t r heap world events)
    (hk : m + n ≤ k) : p.Finishes k s r heap world events := by
  obtain ⟨l, u, hl, he, hu⟩ := h'
  exact ⟨m + l, u, by omega, h.ends he, hu⟩

theorem ends_of_run {budget left : Nat} (h : p.run budget left s = (r, u))
    (hr : r ≠ .error (.budgetExhausted budget)) : ∃ n, n ≤ left ∧ p.Ends n s r u := by
  obtain ⟨t, -, hx⟩ | ⟨n, r', t, hn, he⟩ := p.steps_or_ends left s
  · exact absurd (congrArg Prod.fst (h.symm.trans (hx budget))) hr
  · obtain ⟨rfl, rfl⟩ := Prod.mk.inj ((he.run_eq budget hn).symm.trans h)
    exact ⟨n, hn, he⟩

end Program

structure Zone.Of (b : Body) (r : Region) (z : Zone) : Prop where
  cleanup : z.cleanup = decide (r.handler = .cleanup)
  start : b.position? r.tryStart = some z.guarded.start
  stop : b.position? r.tryEnd = some z.guarded.stop
  handlerStart : b.position? r.handlerStart = some z.handler.start
  handlerStop : b.position? r.handlerEnd = some z.handler.stop

namespace Body

variable {b : Body}

def guards (b : Body) (r : Region) (position : Nat) : Bool :=
  match b.position? r.tryStart, b.position? r.tryEnd with
  | some start, some stop => (Extent.mk start stop).covers position
  | _, _ => false

theorem guards_eq_covers {r : Region} {z : Zone} (h : Zone.Of b r z) (n : Nat) :
    b.guards r n = z.guarded.covers n := by
  simp only [guards, h.start, h.stop]

theorem locate_eq_ok {l : Label} {n : Nat} (h : b.position? l = some n) : b.locate l = .ok n := by
  simp only [locate, h]

theorem zone_eq_ok {r : Region} {z : Zone} (h : Zone.Of b r z) : b.zone r = .ok z := by
  obtain ⟨cleanup, ⟨s, e⟩, hs, he⟩ := z
  obtain rfl : cleanup = decide (r.handler = .cleanup) := h.cleanup
  simp only [zone, locate_eq_ok h.start, locate_eq_ok h.stop, locate_eq_ok h.handlerStart,
    locate_eq_ok h.handlerStop, bind, Except.bind]
  rfl

theorem mapM_zone_eq_ok {rs : List Region} {zs : List Zone} (h : List.Forall₂ (Zone.Of b) rs zs) :
    rs.mapM b.zone = .ok zs := by
  induction h with
  | nil => rfl
  | cons hz _ ih => simp only [List.mapM_cons, zone_eq_ok hz, ih]; rfl

theorem Sound.exists_zones (h : b.Sound) : ∃ zs, List.Forall₂ (Zone.Of b) b.regions zs := by
  have hr := h.region
  generalize b.regions = rs at hr
  induction rs with
  | nil => exact ⟨[], .nil⟩
  | cons r rs ih =>
    obtain ⟨zs, hzs⟩ := ih fun r' hr' ↦ hr r' (by simp [hr'])
    obtain ⟨s, hs, -, e, he, -, hs', hhs, -, he', hhe, -⟩ := hr r (by simp)
    exact ⟨⟨_, ⟨s, e⟩, ⟨hs', he'⟩⟩ :: zs, .cons ⟨rfl, hs, he, hhs, hhe⟩ hzs⟩

theorem ofBody_eq_ok {zs : List Zone} (hz : List.Forall₂ (Zone.Of b) b.regions zs) (hooks : Hooks)
    (args : List Value) (host : Host σ) :
    Program.ofBody b hooks args host = .ok ⟨b, zs, hooks, args, host⟩ := by
  simp only [Program.ofBody, mapM_zone_eq_ok hz]
  rfl

def answer (r : Except Fault Outcome) (s : State σ) : Result σ (Except Failure Execution) :=
  match r with
  | .ok outcome => ⟨.ok ⟨outcome, s.trace⟩, s.heap, s.world⟩
  | .error fault => ⟨.error (.broken fault), s.heap, s.world⟩

section

variable (h : b.Sound) {zs : List Zone} (hz : List.Forall₂ (Zone.Of b) b.regions zs) (hooks : Hooks)
  (host : Host σ) (call : Invocation) (heap : Heap) (world : σ)
include h hz

/-- An invocation of a sound body is a run of a program made from it. -/
theorem invoke_eq_run : b.invoke hooks host call heap world =
    let run := (⟨b, zs, hooks, call.args, host⟩ : Program σ).run call.budget call.budget
      (.start b heap world)
    answer run.1 run.2 := by
  unfold invoke
  rw [flaw?_eq_none.2 h, ofBody_eq_ok hz]
  dsimp only
  rcases Program.run _ _ _ _ with ⟨r, s⟩
  cases r <;> rfl

variable {hooks host call heap world} {n : Nat} {r : Except Fault Outcome} {t : State σ}

theorem invoke_eq_answer (he : (⟨b, zs, hooks, call.args, host⟩ : Program σ).Ends n
    (.start b heap world) r t) (hn : n ≤ call.budget) :
    b.invoke hooks host call heap world = answer r t := by
  rw [invoke_eq_run h hz, he.run_eq call.budget hn]

theorem exists_answer_of_finishes {args : List Value} {budget : Nat} {outcome : Outcome}
    {heap' : Heap} {world' : σ} {events : List Event}
    (hf : (⟨b, zs, hooks, args, host⟩ : Program σ).Finishes n (.start b heap world) (.ok outcome)
      heap' world' events) (hn : n ≤ budget) :
    ∃ e, b.invoke hooks host ⟨args, budget⟩ heap world = ⟨.ok e, heap', world'⟩ ∧
      e.outcome = outcome ∧ e.trace.events = events.reverse := by
  obtain ⟨m, t, hm, he, rfl, rfl, rfl⟩ := hf
  have hinv : b.invoke hooks host ⟨args, budget⟩ heap world = answer (.ok outcome) t :=
    invoke_eq_answer h hz he (Nat.le_trans hm hn)
  exact ⟨_, hinv, rfl, rfl⟩

/-- An invocation whose budget was large enough comes from a run that ends. -/
theorem exists_ends_of_invoke (hne : (b.invoke hooks host call heap world).answer ≠
    .error (.broken (.budgetExhausted call.budget))) :
    ∃ n r t, n ≤ call.budget ∧ (⟨b, zs, hooks, call.args, host⟩ : Program σ).Ends n
      (.start b heap world) r t ∧ b.invoke hooks host call heap world = answer r t := by
  rw [invoke_eq_run h hz] at hne ⊢
  generalize hrun : Program.run _ call.budget call.budget _ = run at hne ⊢
  have hr : run.1 ≠ .error (.budgetExhausted call.budget) := by
    intro hr
    simp only [hr, answer, ne_eq, not_true] at hne
  obtain ⟨n, hn, he⟩ := Program.ends_of_run hrun hr
  exact ⟨n, run.1, run.2, hn, he, rfl⟩

theorem exists_ends_of_invoke_ok {e : Execution}
    (hok : (b.invoke hooks host call heap world).answer = .ok e) :
    ∃ n t, n ≤ call.budget ∧ (⟨b, zs, hooks, call.args, host⟩ : Program σ).Ends n
      (.start b heap world) (.ok e.outcome) t ∧
      b.invoke hooks host call heap world = ⟨.ok e, t.heap, t.world⟩ ∧ e.trace = t.trace := by
  obtain ⟨n, r, t, hn, he, hinv⟩ := exists_ends_of_invoke h hz
    fun hne ↦ nomatch hok.symm.trans hne
  rw [hinv] at hok
  cases r with
  | error => cases hok
  | ok outcome =>
    obtain rfl : (⟨outcome, t.trace⟩ : Execution) = e := Except.ok.inj hok
    exact ⟨n, t, hn, he, hinv, rfl⟩

end

theorem exists_ok_of_map {ε α β : Type} {x : Except ε α} {f : α → β} {c : β}
    (h : x.toOption.map f = some c) : ∃ a, x = .ok a ∧ f a = c := by
  cases x with
  | error => cases h
  | ok a => exact ⟨a, rfl, Option.some.inj h⟩

theorem sound_of_invoke_ok {hooks : Hooks} {host : Host σ} {call : Invocation} {heap : Heap} {world : σ}
    {e : Execution} (he : (b.invoke hooks host call heap world).answer = .ok e) : b.Sound := by
  rw [← flaw?_eq_none]
  cases hb : b.flaw? with
  | none => rfl
  | some flaw =>
    simp only [invoke, hb] at he
    cases he

end Body

end CilSpan
