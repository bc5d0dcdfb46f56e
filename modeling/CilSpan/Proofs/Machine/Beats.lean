import CilSpan.Proofs.Machine.Fits
import CilSpan.Proofs.Machine.Width
import Mathlib.Data.List.Chain

namespace CilSpan

/-- An executed instruction. `fell` says that no jump led to it: the run starts there, or control went
on from the instruction in front. -/
structure Beat where
  fell : Bool
  moment : Moment
  events : List Event
deriving DecidableEq, Repr

/-- The beat `w` can come right behind `v`: by a jump, or because it is the instruction behind. -/
def Beat.Leads (v w : Beat) : Prop := w.fell = true → w.moment.position = v.moment.position + 1

variable {σ : Type}

def Turn.state : Turn σ → State σ
  | .next s | .jumped s | .ended _ s | .broken _ s => s

theorem Turn.state_of_goes {turn : Turn σ} {t : State σ} (h : turn.Goes t) : turn.state = t := by
  obtain rfl | rfl := h
  · rfl
  · rfl

def State.news (s t : State σ) : List Event :=
  (t.events.take (t.events.length - s.events.length)).reverse

theorem State.news_eq {s t : State σ} {new : List Event} (h : t.events = new ++ s.events) :
    s.news t = new.reverse := by
  rw [news, h, List.length_append, Nat.add_sub_cancel, List.take_left]

theorem State.events_eq_news {s t : State σ} {new : List Event} (h : t.events = new ++ s.events) :
    t.events = (s.news t).reverse ++ s.events := by
  rw [news_eq h, List.reverse_reverse, h]

namespace Program

def beats (p : Program σ) : Nat → Bool → State σ → List Beat
  | 0, _, _ => []
  | left + 1, fell, s =>
    match p.body.code[s.position]? with
    | none => []
    | some i =>
      let beat := ⟨fell, ⟨s.position, i.label, s.stack⟩, s.news (p.step s).state⟩
      match p.step s with
      | .next t => beat :: p.beats left true t
      | .jumped t => beat :: p.beats left false t
      | .ended _ _ | .broken _ _ => [beat]

variable {p : Program σ} {i : Instr} {s t u : State σ} {n : Nat} {r : Except Fault Outcome}
  {fell : Bool}

/-- What a step records: the instruction, and events that are calls of the tracer only if it is
one. -/
structure Logs (p : Program σ) (i : Instr) (s t : State σ) : Prop where
  path : t.path = ⟨s.position, i.label, s.stack⟩ :: s.path
  events : ∃ new, t.events = new ++ s.events ∧ ∀ e ∈ new, ∀ hook, e.hook? = some hook →
    ∃ callee, i.op.callee? = some callee ∧ p.hooks.hook? callee = some hook

theorem logs_step (hi : p.body.code[s.position]? = some i) : p.Logs i s (p.step s).state := by
  rw [step_eq_exec hi]
  have he := effect_exec p i { s with path := ⟨s.position, i.label, s.stack⟩ :: s.path }
  generalize p.exec i _ = turn at he
  cases he with
  | next h | branch h | returned h | broken h => exact ⟨h.path, h.events⟩
  | @leave s₁ _ _ k h =>
    obtain ⟨t, ht, hp, he⟩ := exists_depart s₁ k (handlersBetween p.zones s.position k)
    rw [ht]
    exact ⟨hp.trans h.path, by rw [Turn.state, he]; exact h.events⟩
  | resume =>
    obtain ⟨t, ht, hp, he⟩ := exists_depart (σ := σ) _ _ _
    rw [ht]
    exact ⟨hp, [], he, by simp⟩
  | unwind =>
    obtain ⟨t, ht, hp, he⟩ | ht := exists_raise p _ _ _ _
    · rw [ht]
      exact ⟨hp, [], he, by simp⟩
    · rw [ht]
      exact ⟨rfl, [], rfl, by simp⟩
  | raise h =>
    obtain ⟨t, ht, hp, he⟩ | ht := exists_raise p _ _ _ _
    · rw [ht]
      exact ⟨hp.trans h.path, by rw [Turn.state, he]; exact h.events⟩
    · rw [ht]
      exact ⟨h.path, h.events⟩

section

variable (hi : p.body.code[s.position]? = some i) (left : Nat) (fell : Bool)
include hi

theorem beats_next (h : p.step s = .next t) : p.beats (left + 1) fell s =
    ⟨fell, ⟨s.position, i.label, s.stack⟩, s.news t⟩ :: p.beats left true t := by
  simp only [beats, hi, h, Turn.state]

theorem beats_jumped (h : p.step s = .jumped t) : p.beats (left + 1) fell s =
    ⟨fell, ⟨s.position, i.label, s.stack⟩, s.news t⟩ :: p.beats left false t := by
  simp only [beats, hi, h, Turn.state]

theorem beats_ended {outcome : Outcome} (h : p.step s = .ended outcome t) :
    p.beats (left + 1) fell s = [⟨fell, ⟨s.position, i.label, s.stack⟩, s.news t⟩] := by
  simp only [beats, hi, h, Turn.state]

theorem beats_broken {fault : Fault} (h : p.step s = .broken fault t) :
    p.beats (left + 1) fell s = [⟨fell, ⟨s.position, i.label, s.stack⟩, s.news t⟩] := by
  simp only [beats, hi, h, Turn.state]

end

theorem beats_none (hi : p.body.code[s.position]? = none) (left : Nat) (fell : Bool) :
    p.beats left fell s = [] := by
  cases left with
  | zero => rfl
  | succ left => simp only [beats, hi]

theorem exists_beats_cons (hi : p.body.code[s.position]? = some i) (fell : Bool)
    (hgo : (p.step s).Goes t) : ∃ fell', ∀ left, p.beats (left + 1) fell s =
      ⟨fell, ⟨s.position, i.label, s.stack⟩, s.news (p.step s).state⟩ :: p.beats left fell' t := by
  obtain hs | hs := hgo
  · rw [hs]
    exact ⟨true, fun left ↦ beats_next hi left fell hs⟩
  · rw [hs]
    exact ⟨false, fun left ↦ beats_jumped hi left fell hs⟩

theorem beats_succ (hi : p.body.code[s.position]? = some i) (left : Nat) (fell : Bool) :
    ∃ rest, p.beats (left + 1) fell s =
        ⟨fell, ⟨s.position, i.label, s.stack⟩, s.news (p.step s).state⟩ :: rest ∧
      (rest = [] ∨ ∃ fell' t, (p.step s).Goes t ∧ (fell' = true → t.position = s.position + 1) ∧
        rest = p.beats left fell' t) := by
  cases hs : p.step s with
  | next t =>
    have ht := (frame_of_next hi hs).1
    exact ⟨_, beats_next hi left fell hs, .inr ⟨true, t, .inl rfl, fun _ ↦ ht, rfl⟩⟩
  | jumped t => exact ⟨_, beats_jumped hi left fell hs, .inr ⟨false, t, .inr rfl, nofun, rfl⟩⟩
  | ended outcome t => exact ⟨[], beats_ended hi left fell hs, .inl rfl⟩
  | broken fault t => exact ⟨[], beats_broken hi left fell hs, .inl rfl⟩

/-- A budget beyond the end of a run adds no beats. -/
theorem Ends.beats_eq (h : p.Ends n s r u) (fell : Bool) {left : Nat} (hn : n ≤ left) :
    p.beats left fell s = p.beats n fell s := by
  induction h generalizing left fell with
  | ended hs =>
    obtain ⟨left, rfl⟩ := Nat.exists_eq_add_of_le' hn
    obtain ⟨i, hi⟩ := exists_of_step_ended hs
    rw [beats_ended hi left fell hs, beats_ended hi 0 fell hs]
  | @broken s t fault hs =>
    obtain ⟨left, rfl⟩ := Nat.exists_eq_add_of_le' hn
    cases hi : p.body.code[s.position]? with
    | none => rw [beats_none hi, beats_none hi]
    | some i => rw [beats_broken hi left fell hs, beats_broken hi 0 fell hs]
  | @cons n s t u r hgo _ ih =>
    obtain ⟨left, rfl⟩ := Nat.exists_eq_add_of_le' (show 1 ≤ left by omega)
    obtain ⟨i, hi⟩ := exists_of_step_goes hgo
    obtain ⟨fell', hbeats⟩ := exists_beats_cons hi fell hgo
    rw [hbeats, hbeats, ih fell' (by omega)]

/-- The beats hold all that a run has executed and recorded. -/
theorem Ends.log (h : p.Ends n s r u) (fell : Bool) :
    u.path = ((p.beats n fell s).map Beat.moment).reverse ++ s.path ∧
      u.events = ((p.beats n fell s).flatMap Beat.events).reverse ++ s.events := by
  induction h generalizing fell with
  | @ended s t outcome hs =>
    obtain ⟨i, hi⟩ := exists_of_step_ended hs
    obtain ⟨hpath, new, hnew, -⟩ := logs_step hi
    rw [hs] at hpath hnew
    rw [beats_ended hi 0 fell hs]
    refine ⟨hpath, ?_⟩
    simpa only [List.flatMap_singleton] using State.events_eq_news (t := t) hnew
  | @broken s t fault hs =>
    cases hi : p.body.code[s.position]? with
    | none =>
      rw [beats_none hi]
      simp only [step, hi] at hs
      injection hs with _ hs
      exact ⟨congrArg State.path hs.symm, congrArg State.events hs.symm⟩
    | some i =>
      obtain ⟨hpath, new, hnew, -⟩ := logs_step hi
      rw [hs] at hpath hnew
      rw [beats_broken hi 0 fell hs]
      refine ⟨hpath, ?_⟩
      simpa only [List.flatMap_singleton] using State.events_eq_news (t := t) hnew
  | @cons n s t u r hgo _ ih =>
    obtain ⟨i, hi⟩ := exists_of_step_goes hgo
    obtain ⟨hpath, new, hnew, -⟩ := logs_step hi
    have hstate := Turn.state_of_goes hgo
    obtain ⟨fell', hbeats⟩ := exists_beats_cons hi fell hgo
    obtain ⟨hp, he⟩ := ih fell'
    rw [hstate] at hpath hnew hbeats
    rw [hbeats, State.news_eq hnew]
    refine ⟨?_, ?_⟩
    · rw [hp, hpath, List.map_cons, List.reverse_cons, List.append_assoc]
      rfl
    · rw [he, hnew, List.flatMap_cons, List.reverse_append, List.reverse_reverse, List.append_assoc]

theorem Steps.events_eq (h : p.Steps n s t) (fell : Bool) :
    t.events = ((p.beats n fell s).flatMap Beat.events).reverse ++ s.events := by
  induction h generalizing fell with
  | zero => rfl
  | @cons n s t u hgo _ ih =>
    obtain ⟨i, hi⟩ := exists_of_step_goes hgo
    obtain ⟨-, new, hnew, -⟩ := logs_step hi
    have hstate := Turn.state_of_goes hgo
    obtain ⟨fell', hbeats⟩ := exists_beats_cons hi fell hgo
    rw [hstate] at hnew hbeats
    rw [ih fell', hbeats, State.news_eq hnew, hnew, List.flatMap_cons, List.reverse_append,
      List.reverse_reverse, List.append_assoc]

/-- A larger budget only adds beats. -/
theorem beats_prefix {m : Nat} (h : n ≤ m) (fell : Bool) (s : State σ) :
    p.beats n fell s <+: p.beats m fell s := by
  induction n generalizing m fell s with
  | zero => exact List.nil_prefix
  | succ n ih =>
    obtain ⟨m, rfl⟩ := Nat.exists_eq_add_of_le' (show 1 ≤ m by omega)
    cases hi : p.body.code[s.position]? with
    | none => exact beats_none hi (n + 1) fell ▸ List.nil_prefix
    | some i =>
      cases hs : p.step s with
      | next t =>
        rw [beats_next hi n fell hs, beats_next hi m fell hs]
        exact List.cons_prefix_cons.2 ⟨rfl, ih (by omega) true t⟩
      | jumped t =>
        rw [beats_jumped hi n fell hs, beats_jumped hi m fell hs]
        exact List.cons_prefix_cons.2 ⟨rfl, ih (by omega) false t⟩
      | ended outcome t =>
        have heq := (beats_ended hi n fell hs).trans (beats_ended hi m fell hs).symm
        exact heq ▸ List.prefix_rfl
      | broken fault t =>
        have heq := (beats_broken hi n fell hs).trans (beats_broken hi m fell hs).symm
        exact heq ▸ List.prefix_rfl

theorem head_beats {left : Nat} {fell : Bool} {v : Beat} (h : v ∈ (p.beats left fell s).head?) :
    v.fell = fell ∧ v.moment.position = s.position := by
  cases left with
  | zero => cases h
  | succ left =>
    cases hi : p.body.code[s.position]? with
    | none =>
      rw [beats_none hi] at h
      cases h
    | some i =>
      obtain ⟨rest, hbeats, -⟩ := beats_succ hi left fell
      rw [hbeats] at h
      obtain rfl := Option.some.inj h
      exact ⟨rfl, rfl⟩

/-- A run that ends with an outcome executes an instruction first. -/
theorem Ends.exists_head_beats {outcome : Outcome} (h : p.Ends n s (.ok outcome) u) (fell : Bool) :
    ∃ v ∈ (p.beats n fell s).head?, v.fell = fell ∧ v.moment.position = s.position := by
  obtain ⟨left, rfl⟩ := Nat.exists_eq_add_of_le' h.pos
  obtain ⟨i, hi⟩ : ∃ i, p.body.code[s.position]? = some i := by
    cases h with
    | ended hs => exact exists_of_step_ended hs
    | cons hgo => exact exists_of_step_goes hgo
  obtain ⟨rest, hbeats, -⟩ := beats_succ hi left fell
  rw [hbeats]
  exact ⟨_, rfl, rfl, rfl⟩

theorem isChain_beats (left : Nat) (fell : Bool) (s : State σ) :
    (p.beats left fell s).IsChain Beat.Leads := by
  induction left generalizing fell s with
  | zero => exact .nil
  | succ left ih =>
    cases hi : p.body.code[s.position]? with
    | none =>
      rw [beats_none hi]
      exact .nil
    | some i =>
      obtain ⟨rest, hbeats, hrest⟩ := beats_succ hi left fell
      rw [hbeats]
      obtain rfl | ⟨fell', t, -, ht, rfl⟩ := hrest
      · exact .singleton _
      · refine List.isChain_cons.2 ⟨fun w hw hf ↦ ?_, ih fell' t⟩
        obtain ⟨hfell, hposition⟩ := head_beats hw
        exact hposition.trans (ht (hfell ▸ hf))

theorem exists_instr_of_mem_beats {left : Nat} {fell : Bool} {v : Beat}
    (h : v ∈ p.beats left fell s) :
    ∃ i, p.body.code[v.moment.position]? = some i ∧ i.label = v.moment.label := by
  induction left generalizing fell s with
  | zero => cases h
  | succ left ih =>
    cases hi : p.body.code[s.position]? with
    | none =>
      rw [beats_none hi] at h
      cases h
    | some i =>
      obtain ⟨rest, hbeats, hrest⟩ := beats_succ hi left fell
      rw [hbeats] at h
      obtain rfl | h := List.mem_cons.1 h
      · exact ⟨i, hi, rfl⟩
      · obtain rfl | ⟨fell', t, -, -, rfl⟩ := hrest
        · cases h
        · exact ih h

theorem hook?_of_mem_beats (hp : ∀ i ∈ p.body.code, ∀ callee, i.op.callee? = some callee →
    p.hooks.hook? callee = none) (left : Nat) (fell : Bool) (s : State σ) :
    ∀ beat ∈ p.beats left fell s, ∀ e ∈ beat.events, e.hook? = none := by
  induction left generalizing fell s with
  | zero => simp [beats]
  | succ left ih =>
    cases hi : p.body.code[s.position]? with
    | none => simp [beats_none hi]
    | some i =>
      obtain ⟨-, new, hnew, hhook⟩ := logs_step hi
      have hplain : ∀ e ∈ s.news (p.step s).state, e.hook? = none := by
        intro e he
        rw [State.news_eq hnew, List.mem_reverse] at he
        cases hk : e.hook? with
        | none => rfl
        | some hook =>
          obtain ⟨callee, hcallee, hc⟩ := hhook e he hook hk
          rw [hp i (List.mem_of_getElem? hi) callee hcallee] at hc
          cases hc
      obtain ⟨rest, hbeats, hrest⟩ := beats_succ hi left fell
      rw [hbeats]
      refine List.forall_mem_cons.2 ⟨hplain, ?_⟩
      obtain rfl | ⟨fell', t, -, -, rfl⟩ := hrest
      · exact nofun
      · exact ih fell' t

theorem beats_lengthen (p : Program σ) (left : Nat) (fell : Bool) (s : State σ) :
    p.lengthen.beats left fell s = p.beats left fell s := by
  induction left generalizing fell s with
  | zero => rfl
  | succ left ih =>
    have hcode : p.lengthen.body.code[s.position]? =
        p.body.code[s.position]?.map fun i ↦ { i with op := i.op.lengthen } :=
      p.body.getElem?_lengthen s.position
    simp only [beats, hcode, step_lengthen]
    cases p.body.code[s.position]? with
    | none => rfl
    | some i => cases p.step s <;> simp only [Option.map_some, ih]

end Program

namespace Body

variable {b : Body} {hooks : Hooks} {host : Host σ} {call : Invocation} {heap : Heap} {world : σ}

def beats (b : Body) (hooks : Hooks) (host : Host σ) (call : Invocation) (heap : Heap)
    (world : σ) : List Beat :=
  match Program.ofBody b hooks call.args host with
  | .error _ => []
  | .ok p => p.beats call.budget true (.start b heap world)

def record (b : Body) (hooks : Hooks) (host : Host σ) (call : Invocation) (heap : Heap) (world : σ) :
    List Event :=
  (b.beats hooks host call heap world).flatMap Beat.events

theorem beats_lengthen (b : Body) (hooks : Hooks) (host : Host σ) (call : Invocation)
    (heap : Heap) (world : σ) :
    b.lengthen.beats hooks host call heap world = b.beats hooks host call heap world := by
  have hs : State.start b.lengthen heap world = State.start b heap world := rfl
  unfold beats
  rw [Program.ofBody_lengthen, hs]
  cases Program.ofBody b hooks call.args host with
  | error fault => rfl
  | ok p => exact p.beats_lengthen _ _ _

theorem beats_eq {zs : List Zone} (hz : List.Forall₂ (Zone.Of b) b.regions zs) :
    b.beats hooks host call heap world = (⟨b, zs, hooks, call.args, host⟩ : Program σ).beats
      call.budget true (.start b heap world) := by
  simp only [beats, ofBody_eq_ok hz]

section

variable (h : b.Sound)
include h

theorem isChain_beats : (b.beats hooks host call heap world).IsChain Beat.Leads := by
  obtain ⟨zs, hz⟩ := h.exists_zones
  rw [beats_eq hz]
  exact Program.isChain_beats _ _ _

theorem head_beats {v : Beat} (hv : v ∈ (b.beats hooks host call heap world).head?) :
    v.fell = true ∧ v.moment.position = 0 := by
  obtain ⟨zs, hz⟩ := h.exists_zones
  rw [beats_eq hz] at hv
  exact Program.head_beats hv

theorem exists_instr_of_mem_beats {v : Beat} (hv : v ∈ b.beats hooks host call heap world) :
    ∃ i, b.code[v.moment.position]? = some i ∧ i.label = v.moment.label := by
  obtain ⟨zs, hz⟩ := h.exists_zones
  rw [beats_eq hz] at hv
  exact Program.exists_instr_of_mem_beats hv

end

/-- The trace of an invocation is what its beats have executed and recorded. -/
theorem trace_eq_beats (h : b.Sound) {e : Execution}
    (he : (b.invoke hooks host call heap world).answer = .ok e) :
    e.trace.visits = (b.beats hooks host call heap world).map (·.moment.visit) ∧
      e.trace.events = b.record hooks host call heap world := by
  obtain ⟨zs, hz⟩ := h.exists_zones
  obtain ⟨n, t, hn, hends, -, htrace⟩ := exists_ends_of_invoke_ok h hz he
  obtain ⟨hpath, hevents⟩ := hends.log true
  rw [record, beats_eq hz, hends.beats_eq true hn, htrace]
  simp only [State.trace, hpath, hevents, State.start, List.append_nil, List.reverse_reverse,
    List.map_map]
  exact ⟨rfl, trivial⟩

end Body

end CilSpan
