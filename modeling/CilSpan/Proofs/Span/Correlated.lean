import CilSpan.Proofs.Machine.Beats
import CilSpan.Proofs.Machine.Embed
import CilSpan.Proofs.Span.CorrelateForm
import Mathlib.Data.List.Infix

namespace CilSpan

variable {σ : Type}

/-- What is recorded where the old body had the beat. -/
def Beat.woven (entry : Nat) (completions : List Label) (id : Int32) (name : String)
    (beat : Beat) : List Event :=
  (if beat.fell ∧ beat.moment.position = entry then [.asyncEnter id name] else []) ++
    (if beat.moment.label ∈ completions then [.asyncExit id name] else []) ++ beat.events

def Beat.marks (entry : Nat) (completions : List Label) (id : Int32) (name : String)
    (beat : Beat) : List Event :=
  (if beat.fell ∧ beat.moment.position = entry then [.asyncEnter id name] else []) ++
    if beat.moment.label ∈ completions then [.asyncExit id name] else []

def Since (first first' events events' : List Event) : Prop :=
  ∃ new, events = new ++ first ∧ events' = new ++ first'

theorem grows_since (first first' : List Event) : Program.Grows (Since first first') := by
  rintro e a b ⟨new, rfl, rfl⟩
  exact ⟨e :: new, rfl, rfl⟩

def Body.known (b : Body) (path : List Moment) : List Label :=
  (path.map Moment.label).filter (· ∈ b.labels)

theorem Body.known_cons_of_mem {b : Body} {m : Moment} (hm : m.label ∈ b.labels)
    (path : List Moment) : b.known (m :: path) = m.label :: b.known path := by
  simp [known, hm]

theorem Body.known_cons_of_not_mem {b : Body} {m : Moment} (hm : m.label ∉ b.labels)
    (path : List Moment) : b.known (m :: path) = b.known path := by
  simp [known, hm]

theorem Body.filter_trace (b : Body) (s : State σ) :
    (s.trace.visits.map Visit.label).filter (· ∈ b.labels) = (b.known s.path).reverse := by
  have hlabels : s.trace.visits.map Visit.label = (s.path.map Moment.label).reverse := by
    simp only [State.trace, List.map_map, List.map_reverse]
    rfl
  rw [hlabels, List.filter_reverse, known]

/-- Other instructions in between do not count. -/
theorem Body.known_of_map_eq {b : Body} {path path' : List Moment} {run : List Instr}
    (h : path.map Moment.label = (run.map Instr.label).reverse ++ path'.map Moment.label)
    (hrun : ∀ i ∈ run, i.label ∉ b.labels) : b.known path = b.known path' := by
  have hnil : (run.map Instr.label).reverse.filter (· ∈ b.labels) = [] := by
    apply List.filter_eq_nil_iff.2
    intro l hl
    obtain ⟨i, hi, rfl⟩ := List.mem_map.1 (List.mem_reverse.1 hl)
    simpa using hrun i hi
  rw [known, h, List.filter_append, hnil, List.nil_append, known]

namespace Program

def woven (p : Program σ) (c : Body) (xs : List Piece) : Program σ :=
  { p with body := c, zones := p.zones.map (Zone.move (place xs)) }

theorem steps_correlatedCall {p : Program σ} {s : State σ} {hook : Hook} {callee : Callee}
    {event : Event} {id : Int32} {name : String} {run : List Instr}
    (hrun : run.map Instr.op = correlatedCall id name callee)
    (hcode : p.body.Holds s.position run)
    (ha : callee.arity = 2) (hk : p.hooks.hook? callee = some hook)
    (he : hookEvent? hook [.int id, .str name] = some event) :
    ∃ path, p.Steps 3 s { s with position := s.position + 3, path, events := event :: s.events } ∧
      path.map Moment.label = (run.map Instr.label).reverse ++ s.path.map Moment.label := by
  obtain ⟨⟨l₀, _⟩, run₁, rfl, rfl, hrun₁⟩ := List.map_eq_cons_iff.1 hrun
  obtain ⟨⟨l₁, _⟩, run₂, rfl, rfl, hrun₂⟩ := List.map_eq_cons_iff.1 hrun₁
  obtain ⟨⟨l₂, _⟩, rfl, rfl⟩ := List.map_eq_singleton_iff.1 hrun₂
  have hpop : popArgs? (.str name :: .int id :: s.stack) callee.arity =
      some ([.int id, .str name], s.stack) := by
    rw [ha]
    exact if_pos (by simp)
  let s₁ : State σ := { s with
    position := s.position + 1
    stack := .int id :: s.stack
    path := ⟨s.position, l₀, s.stack⟩ :: s.path }
  let s₂ : State σ := { s₁ with
    position := s.position + 2
    stack := .str name :: .int id :: s.stack
    path := ⟨s.position + 1, l₁, .int id :: s.stack⟩ :: s₁.path }
  have h₀ : p.step s = .next s₁ := step_eq hcode.head rfl
  have h₁ : p.step s₁ = .next s₂ := step_eq hcode.tail.head rfl
  have h₂ : p.step s₂ = .next { s₂ with
      position := s.position + 3
      stack := s.stack
      path := ⟨s.position + 2, l₂, s₂.stack⟩ :: s₂.path
      events := event :: s.events } :=
    step_eq hcode.tail.tail.head (invoke_hook hpop hk he)
  exact ⟨_, (Steps.next h₀).trans ((Steps.next h₁).trans (.next h₂)), rfl⟩

end Program

namespace Woven

variable {R : List Event → List Event → Prop}

variable {p : Program σ} {c : Body} {entry : Nat} {completions : List Label} {id : Int32}
  {name : String} {tracer : TypeName} {xs : List Piece} {n : Nat} {i : Instr} {s s' t : State σ}
  {fell : Bool}

variable (h : Woven p.body c entry completions id name p.hooks xs)
include h

theorem embeds (hc : c.Sound) : Program.Embeds (place xs) [] p (p.woven c xs) where
  mono := strictMono_place xs
  hooks := rfl
  args := rfl
  host := rfl
  zones := (List.append_nil _).symm
  position _ _ hl := h.spliced.position? h.code hc.nodup hl

theorem loaded (hp : p.Loaded) (hc : c.Sound) : (p.woven c xs).Loaded where
  sound := hc
  zones := by
    have hz := h.spliced.zones_of h.code hc.nodup hp.zones
    rwa [← h.regions] at hz

/-- The `leave` of a completion, which now stands further back, still leaves the same regions. -/
theorem alike_leave (hp : p.Loaded) (hc : c.Sound) (hs : s.Alike (place xs) [] R s')
    (hi : p.body.code[s.position]? = some i) (hl : i.label ∈ completions) {l : Label}
    (hcode : c.code[place xs s.position + 4]? = some ⟨l, i.op⟩)
    (hn : s'.position = place xs s.position + 4)
    (hlt : place xs s.position + 4 < place xs (s.position + 1)) :
    Program.Alike (place xs) [] R (fun _ ↦ True) p (p.woven c xs) s.position n (p.step s)
      ((p.woven c xs).step s') := by
  obtain ⟨label, op⟩ := i
  obtain ⟨width, target, rfl⟩ := Op.isLeave_iff.1 (h.leave _ (List.mem_of_getElem? hi) hl)
  obtain ⟨k, hk⟩ := hp.exists_position (List.mem_of_getElem? hi) rfl
  have hk' := h.spliced.position? h.code hc.nodup hk
  have hstep := Program.step_eq_exec hi
  rw [Program.exec_leave hk] at hstep
  have hstep' := Program.step_eq_exec (p := p.woven c xs) (hn ▸ hcode)
  rw [Program.exec_leave (p := p.woven c xs) hk'] at hstep'
  have hh : handlersBetween (p.woven c xs).zones s'.position (place xs k) =
      (handlersBetween p.zones s.position k).map (place xs) :=
    handlersBetween_move (strictMono_place xs) p.zones (by omega) (by omega)
  rw [hstep, hstep', hh]
  refine Program.alike_depart ?_ k _
  exact ⟨rfl, hs.slots, hs.pending, hs.heap, hs.world, hs.events⟩

theorem label_not_mem (hc : c.Sound) {x : Piece} (hx : x ∈ xs) :
    ∀ i ∈ x.ahead ++ x.behind, i.label ∉ p.body.labels := by
  intro i hi
  have hn := hc.nodup
  rw [Body.labels, h.code] at hn
  exact h.spliced.label_not_mem hn hx hi

variable (hooks : p.hooks = .on tracer)
include hooks

/-- Control that falls to the old instruction comes through the entry of the span, if that stands in
front of it. -/
theorem steps_arrival (hc : c.Sound) (hi : p.body.code[n]? = some i)
    (hn : s'.position = if fell then arrival xs n else place xs n) :
    ∃ m path, m ≤ 3 ∧ p.body.known path = p.body.known s'.path ∧
      (p.woven c xs).Steps m s' { s' with
        position := place xs n
        path
        events := (if fell ∧ n = entry then [.asyncEnter id name] else []) ++ s'.events } := by
  obtain ⟨x, hx, -, -, hahead⟩ := h.spliced.piece n i hi
  have hplace := place_eq_arrival hx
  by_cases hf : fell = true ∧ n = entry
  · obtain ⟨rfl, rfl⟩ := hf
    rw [if_pos rfl] at hahead
    rw [if_pos rfl] at hn
    have hlen : x.ahead.length = 3 := by
      rw [← List.length_map Instr.op, hahead]
      rfl
    have hcode : c.Holds s'.position x.ahead := hn ▸ holds_ahead h.code hx
    have harity : p.hooks.asyncEnter.arity = 2 := hooks ▸ rfl
    have hhook : p.hooks.hook? p.hooks.asyncEnter = some .asyncEnter :=
      hooks ▸ hook?_on tracer .asyncEnter
    obtain ⟨path, hsteps, hpath⟩ :=
      Program.steps_correlatedCall (p := p.woven c xs) hahead hcode harity hhook rfl
    have hpos : s'.position + 3 = place xs n := by omega
    have hfresh := h.label_not_mem hc (List.mem_of_getElem? hx)
    refine ⟨3, path, le_refl 3, Body.known_of_map_eq hpath fun j hj ↦ hfresh j (by simp [hj]), ?_⟩
    rw [hpos] at hsteps
    simpa using hsteps
  · have hpos : s'.position = place xs n := by
      cases fell with
      | false => exact hn
      | true =>
        have hne : n ≠ entry := fun he ↦ hf ⟨rfl, he⟩
        rw [if_neg hne, List.map_eq_nil_iff] at hahead
        rw [hn, if_pos rfl, hplace, hahead]
        rfl
    refine ⟨0, s'.path, by omega, rfl, ?_⟩
    rw [if_neg hf, ← hpos]
    exact .zero s'

/-- A completion is a `nop` now, with the exit of the span and the old instruction behind it. -/
theorem steps_completion (hc : c.Sound) (hi : p.body.code[n]? = some i)
    (hl : i.label ∈ completions) (hn : s'.position = place xs n) :
    ∃ l path, l ∉ p.body.labels ∧ p.body.known path = i.label :: p.body.known s'.path ∧
      (p.woven c xs).Steps 4 s' { s' with
        position := place xs n + 4, path, events := .asyncExit id name :: s'.events } ∧
      c.code[place xs n + 4]? = some ⟨l, i.op⟩ ∧ arrival xs (n + 1) = place xs n + 5 := by
  obtain ⟨x, hx, hmain, hbehind, -⟩ := h.spliced.piece n i hi
  rw [if_pos hl] at hmain hbehind
  obtain ⟨run, rest, hrun, hops, hrest⟩ := List.map_eq_append_iff.1 hbehind
  obtain ⟨⟨l, _⟩, rfl, rfl⟩ := List.map_eq_singleton_iff.1 hrest
  have hlen : run.length = 3 := by
    rw [← List.length_map Instr.op, hops]
    rfl
  have hcode := holds_place h.code hx
  rw [hmain, hrun] at hcode
  let s₁ : State σ := { s' with
    position := place xs n + 1, path := ⟨s'.position, i.label, s'.stack⟩ :: s'.path }
  have hnop : (p.woven c xs).step s' = .next s₁ := by
    have hm := hcode.head
    rw [← hn] at hm
    simp only [s₁, ← hn]
    exact Program.step_eq hm rfl
  have harity : p.hooks.asyncExit.arity = 2 := hooks ▸ rfl
  have hhook : p.hooks.hook? p.hooks.asyncExit = some .asyncExit :=
    hooks ▸ hook?_on tracer .asyncExit
  obtain ⟨path, hsteps, hpath⟩ := Program.steps_correlatedCall (p := p.woven c xs) (s := s₁) hops
    hcode.tail.left harity hhook rfl
  have hfresh := h.label_not_mem hc (List.mem_of_getElem? hx)
  simp only [hrun, List.mem_append, List.mem_singleton] at hfresh
  have hknown : p.body.known path = i.label :: p.body.known s'.path := by
    rw [Body.known_of_map_eq hpath fun j hj ↦ hfresh j (.inr (.inl hj))]
    exact Body.known_cons_of_mem (List.mem_map_of_mem (List.mem_of_getElem? hi)) _
  refine ⟨l, path, hfresh _ (.inr (.inr rfl)), hknown, (Program.Steps.next hnop).trans hsteps,
    ?_, ?_⟩
  · have hlast := hcode.tail.right.head
    rw [hlen] at hlast
    exact hlast
  · rw [arrival_succ hx, hrun, List.length_append, hlen]
    rfl

/-- Every instruction of the old program is one of the woven one, a few steps later. -/
theorem exists_alike (hp : p.Loaded) (hc : c.Sound) (hs : s.Alike (place xs) [] R s')
    (hf : s.Fits p) (hi : p.body.code[s.position]? = some i)
    (hn : s'.position = if fell then arrival xs s.position else place xs s.position) :
    ∃ m u k, m ≤ 7 ∧ (p.woven c xs).Steps m s' u ∧ k + 1 = arrival xs (s.position + 1) ∧
      u.events = (if i.label ∈ completions then [.asyncExit id name] else []) ++
        ((if fell ∧ s.position = entry then [.asyncEnter id name] else []) ++ s'.events) ∧
      p.body.known ((p.woven c xs).step u).state.path = i.label :: p.body.known s'.path ∧
      Program.Alike (place xs) [] (Since s.events u.events) (fun _ ↦ True) p (p.woven c xs)
        s.position k (p.step s) ((p.woven c xs).step u) := by
  obtain ⟨m, path, hm, hpath, hsteps⟩ := h.steps_arrival hooks hc hi hn
  generalize hs₁ : ({ s' with position := place xs s.position, path, events := _ } : State σ) = s₁
    at hsteps
  have hpos : s₁.position = place xs s.position := hs₁ ▸ rfl
  have hknown : p.body.known s₁.path = p.body.known s'.path := hs₁ ▸ hpath
  have hevents : s₁.events =
      (if fell ∧ s.position = entry then [.asyncEnter id name] else []) ++ s'.events := hs₁ ▸ rfl
  have hsince {u : State σ} (hu : u.stack = s₁.stack ∧ u.slots = s₁.slots ∧
      u.pending = s₁.pending ∧ u.heap = s₁.heap ∧ u.world = s₁.world) :
      s.Alike (place xs) [] (Since s.events u.events) u := by
    obtain ⟨hu₁, hu₂, hu₃, hu₄, hu₅⟩ := hu
    subst hs₁
    exact ⟨hu₁.trans hs.stack, hu₂.trans hs.slots, hu₃.trans hs.pending, hu₄.trans hs.heap,
      hu₅.trans hs.world, [], rfl, rfl⟩
  by_cases hl : i.label ∈ completions
  -- The old instruction is the last one of the new run, and its label is the first.
  · obtain ⟨l, path', hfresh, hpath', hsteps', hcode, harrival⟩ :=
      h.steps_completion hooks hc hi hl hpos
    let s₂ : State σ := { s₁ with
      position := place xs s.position + 4, path := path', events := .asyncExit id name :: s₁.events }
    have hlog := Program.logs_step (p := p.woven c xs) (s := s₂) hcode
    refine ⟨m + 4, s₂, place xs s.position + 4, by omega, hsteps.trans hsteps', harrival.symm,
      ?_, ?_, ?_⟩
    · simp only [if_pos hl, s₂, hevents]
      rfl
    · rw [hlog.path, Body.known_cons_of_not_mem hfresh, hpath', hknown]
    · have hle := arrival_le_place xs (s.position + 1)
      exact h.alike_leave hp hc (hsince ⟨rfl, rfl, rfl, rfl, rfl⟩) hi hl hcode rfl (by omega)
  · obtain ⟨x, hx, -, hbehind, -⟩ := h.spliced.piece _ i hi
    have hsame := h.spliced.getElem?_main h.code hi
    simp only [hl, if_false, List.map_eq_nil_iff] at hbehind hsame
    refine ⟨m, s₁, place xs s.position, by omega, hsteps, ?_, ?_, ?_, ?_⟩
    · rw [arrival_succ hx, hbehind]
      rfl
    · rw [if_neg hl, hevents]
      rfl
    · have hmem : i.label ∈ p.body.labels := List.mem_map_of_mem (List.mem_of_getElem? hi)
      rw [← hpos] at hsame
      rw [(Program.logs_step (p := p.woven c xs) hsame).path, Body.known_cons_of_mem hmem, hknown]
    · exact Program.alike_step (h.embeds hc) (grows_since _ _) (hsince ⟨rfl, rfl, rfl, rfl, rfl⟩)
        hf hpos hi hsame hp trivial (fun _ _ _ _ ↦ trivial) fun _ _ _ _ _ ↦ rfl

/-- How the state `u`, in which a woven run ends that begins with `s'`, goes with the state `t` in
which the old one ends. -/
structure Echo (b : Body) (entry : Nat) (completions : List Label) (id : Int32) (name : String)
    (beats : List Beat) (s' t u : State σ) : Prop where
  heap : u.heap = t.heap
  world : u.world = t.world
  events : u.events = (beats.flatMap (Beat.woven entry completions id name)).reverse ++ s'.events
  known : b.known u.path = (beats.map (·.moment.label)).reverse ++ b.known s'.path

omit h hooks in
theorem Echo.cons {b : Body} {beat : Beat} {beats : List Beat} {t' u : State σ}
    (he : Echo b entry completions id name beats t' t u)
    (hevents : t'.events = (beat.woven entry completions id name).reverse ++ s'.events)
    (hknown : b.known t'.path = beat.moment.label :: b.known s'.path) :
    Echo b entry completions id name (beat :: beats) s' t u where
  heap := he.heap
  world := he.world
  events := by
    rw [he.events, hevents, List.flatMap_cons, List.reverse_append, List.append_assoc]
  known := by
    rw [he.known, hknown, List.map_cons, List.reverse_cons, List.append_assoc]
    rfl

omit h hooks in
theorem events_woven {u t' : State σ}
    (hu : u.events = (if i.label ∈ completions then [.asyncExit id name] else []) ++
      ((if fell ∧ s.position = entry then [.asyncEnter id name] else []) ++ s'.events))
    (ht : t.Alike (place xs) [] (Since s.events u.events) t') :
    t'.events = ((⟨fell, ⟨s.position, i.label, s.stack⟩, s.news t⟩ : Beat).woven entry
      completions id name).reverse ++ s'.events := by
  obtain ⟨new, h₁, h₂⟩ := ht.events
  have hsingle (c : Prop) [Decidable c] (e : Event) :
      (if c then [e] else []).reverse = if c then [e] else [] := by
    split <;> rfl
  simp only [Beat.woven, State.news_eq h₁, List.reverse_append, List.reverse_reverse, hsingle, h₂,
    hu, List.append_assoc]

omit h hooks in
theorem echo_single {u t' : State σ} (ht : t.Alike (place xs) [] (Since s.events u.events) t')
    (hu : u.events = (if i.label ∈ completions then [.asyncExit id name] else []) ++
      ((if fell ∧ s.position = entry then [.asyncEnter id name] else []) ++ s'.events))
    (hknown : p.body.known t'.path = i.label :: p.body.known s'.path) :
    Echo p.body entry completions id name [⟨fell, ⟨s.position, i.label, s.stack⟩, s.news t⟩] s' t
      t' where
  heap := ht.heap
  world := ht.world
  events := by rw [List.flatMap_singleton, events_woven hu ht]
  known := hknown

def Anyhow (_ _ : List Event) : Prop := True

omit hooks in
theorem alike_start (heap : Heap) (world : σ) : (State.start p.body heap world).Alike (place xs) []
    Anyhow (State.start c heap world) :=
  ⟨rfl, by simp [State.start, h.locals], rfl, rfl, rfl, trivial⟩

omit h hooks in
theorem position_start (heap : Heap) (world : σ) : (State.start c heap world).position =
    if true then arrival xs (State.start p.body heap world).position
    else place xs (State.start p.body heap world).position := by
  simp [State.start]

theorem exists_steps (hp : p.Loaded) (hc : c.Sound) (hs : s.Alike (place xs) [] Anyhow s')
    (hf : s.Fits p) (hn : s'.position = if fell then arrival xs s.position else place xs s.position)
    (hgo : (p.step s).Goes t) :
    ∃ m t' fell' beat, 0 < m ∧ m ≤ 8 ∧ (p.woven c xs).Steps m s' t' ∧
      t.Alike (place xs) [] Anyhow t' ∧
      (t'.position = if fell' then arrival xs t.position else place xs t.position) ∧
      (∀ left, p.beats (left + 1) fell s = beat :: p.beats left fell' t) ∧
      t'.events = (beat.woven entry completions id name).reverse ++ s'.events ∧
      p.body.known t'.path = beat.moment.label :: p.body.known s'.path := by
  obtain ⟨i, hi⟩ := Program.exists_of_step_goes hgo
  obtain ⟨m, u, k, hm, hsteps, hk, hu, hknown, ha⟩ := h.exists_alike hooks hp hc hs hf hi hn
  generalize hq : (p.woven c xs).step u = turn at ha hknown
  generalize hpt : p.step s = turn' at ha hgo
  cases ha with
  | @next s₁ t' hs' hn₁ hn₂ =>
    obtain rfl := Turn.goes_next.1 hgo
    refine ⟨m + 1, t', true, _, by omega, by omega, hsteps.trans (.next hq),
      ⟨hs'.stack, hs'.slots, hs'.pending, hs'.heap, hs'.world, trivial⟩, ?_,
      fun left ↦ Program.beats_next hi left fell hpt, events_woven hu hs', hknown⟩
    rw [if_pos rfl, hn₁, hn₂, hk]
  | @jumped s₁ t' hs' hn' =>
    obtain rfl := Turn.goes_jumped.1 hgo
    exact ⟨m + 1, t', false, _, by omega, by omega, hsteps.trans (.jumped hq),
      ⟨hs'.stack, hs'.slots, hs'.pending, hs'.heap, hs'.world, trivial⟩, hn',
      fun left ↦ Program.beats_jumped hi left fell hpt, events_woven hu hs', hknown⟩
  | returned => exact absurd hgo Turn.not_goes_ended
  | threw => exact absurd hgo Turn.not_goes_ended
  | broken => exact absurd hgo Turn.not_goes_broken

omit hooks in
theorem step_end (hn : s'.position = if fell then arrival xs s.position else place xs s.position)
    (hi : p.body.code[s.position]? = none) :
    (p.woven c xs).step s' = .broken .fellOffEnd s' := by
  have hlen : xs.length ≤ s.position := h.spliced.length ▸ List.getElem?_eq_none_iff.1 hi
  rw [arrival_of_length_le hlen, ite_self, place_of_length_le hlen] at hn
  have hnone : (p.woven c xs).body.code[s'.position]? = none := by
    refine List.getElem?_eq_none_iff.2 ?_
    rw [show (p.woven c xs).body.code = rebuild xs [] from h.code, hn]
    exact Nat.le_add_right _ _
  simp only [Program.step, hnone]

/-- The woven run ends like the old one, and its record has the ends of the span in between. -/
theorem exists_echo (hp : p.Loaded) (hc : c.Sound) {r : Except Fault Outcome}
    (he : p.Ends n s r t) (hs : s.Alike (place xs) [] Anyhow s') (hf : s.Fits p)
    (hn : s'.position = if fell then arrival xs s.position else place xs s.position) :
    ∃ m u, m ≤ 8 * n ∧ (p.woven c xs).Ends m s' r u ∧
      Echo p.body entry completions id name (p.beats n fell s) s' t u := by
  induction he generalizing fell s' with
  | @ended s t outcome hstep =>
    obtain ⟨i, hi⟩ := Program.exists_of_step_ended hstep
    obtain ⟨m, u, k, hm, hsteps, hk, hu, hknown, ha⟩ := h.exists_alike hooks hp hc hs hf hi hn
    rw [hstep] at ha
    rw [Program.beats_ended hi 0 fell hstep]
    generalize hq : (p.woven c xs).step u = turn at ha hknown
    cases ha with
    | @returned _ t' value hs' =>
      exact ⟨m + 1, t', by omega, hsteps.ends (.ended hq), echo_single hs' hu hknown⟩
    | @threw _ t' exception origin hs' ho =>
      rw [Program.raise_beyond (by simp [Program.woven])] at hq hknown
      exact ⟨m + 1, t', by omega, hsteps.ends (.ended hq), echo_single hs' hu hknown⟩
  | @broken s t fault hstep =>
    cases hi : p.body.code[s.position]? with
    | none =>
      have hq := h.step_end hn hi
      simp only [Program.step, hi] at hstep
      injection hstep with h₁ h₂
      subst h₁ h₂
      rw [Program.beats_none hi]
      exact ⟨1, s', by omega, .broken hq, hs.heap, hs.world, rfl, rfl⟩
    | some i =>
      obtain ⟨m, u, k, hm, hsteps, hk, hu, hknown, ha⟩ := h.exists_alike hooks hp hc hs hf hi hn
      rw [hstep] at ha
      rw [Program.beats_broken hi 0 fell hstep]
      generalize hq : (p.woven c xs).step u = turn at ha hknown
      cases ha with
      | @broken _ t' _ hs' =>
        exact ⟨m + 1, t', by omega, hsteps.ends (.broken hq), echo_single hs' hu hknown⟩
  | @cons n s t u r hgo he ih =>
    obtain ⟨m, t', fell', beat, -, hm, hsteps, hs', hn', hbeats, hevents, hknown⟩ :=
      h.exists_steps hooks hp hc hs hf hn hgo
    obtain ⟨m', u', hm', hends, hecho⟩ := ih hs' (Program.fits_of_goes hp hf hgo) hn'
    rw [hbeats]
    exact ⟨m + m', u', by omega, hsteps.ends hends, hecho.cons hevents hknown⟩

/-- The woven run goes on for as long as the old one does. -/
theorem exists_steps_le (hp : p.Loaded) (hc : c.Sound) (hst : p.Steps n s t)
    (hs : s.Alike (place xs) [] Anyhow s') (hf : s.Fits p)
    (hn : s'.position = if fell then arrival xs s.position else place xs s.position) :
    ∃ m t', n ≤ m ∧ (p.woven c xs).Steps m s' t' ∧ t'.events =
      ((p.beats n fell s).flatMap (Beat.woven entry completions id name)).reverse ++ s'.events := by
  induction hst generalizing fell s' with
  | zero => exact ⟨0, s', le_refl 0, .zero s', rfl⟩
  | @cons n s t u hgo _ ih =>
    obtain ⟨m, t', fell', beat, hm, -, hsteps, hs', hn', hbeats, hevents, -⟩ :=
      h.exists_steps hooks hp hc hs hf hn hgo
    obtain ⟨m', u', hm', hsteps', hu'⟩ := ih hs' (Program.fits_of_goes hp hf hgo) hn'
    refine ⟨m + m', u', by omega, hsteps.trans hsteps', ?_⟩
    rw [hu', hevents, hbeats, List.flatMap_cons, List.reverse_append, List.append_assoc]

theorem exists_ends_of_woven (hp : p.Loaded) (hc : c.Sound) {m : Nat} {r : Except Fault Outcome}
    {u : State σ} (he : (p.woven c xs).Ends m s' r u) (hs : s.Alike (place xs) [] Anyhow s')
    (hf : s.Fits p) (hn : s'.position = if fell then arrival xs s.position else place xs s.position) :
    ∃ n r t, n ≤ m ∧ p.Ends n s r t := by
  obtain ⟨t, hst, -⟩ | ⟨n, r, t, hn, he⟩ := p.steps_or_ends m s
  -- A run that goes on for `m` old steps goes on for at least as many new ones.
  · obtain ⟨k, t', hk, hst', -⟩ := h.exists_steps_le hooks hp hc hst hs hf hn
    obtain ⟨left, hleft, he'⟩ := hst'.ends_after he
    have hpos := he'.pos
    omega
  · exact ⟨n, r, t, hn, he⟩

/-- What the woven run records within a budget is the beginning of what the old one records within
that budget, woven. -/
theorem record_prefix (hp : p.Loaded) (hc : c.Sound) (hs : s.Alike (place xs) [] Anyhow s')
    (hf : s.Fits p) (hn : s'.position = if fell then arrival xs s.position else place xs s.position)
    (n : Nat) (fell' : Bool) :
    ((p.woven c xs).beats n fell' s').flatMap Beat.events <+:
      (p.beats n fell s).flatMap (Beat.woven entry completions id name) := by
  obtain ⟨t, hst, -⟩ | ⟨k, r, t, hk, hends⟩ := p.steps_or_ends n s
  · obtain ⟨m, t', hm, hst', hevents⟩ := h.exists_steps_le hooks hp hc hst hs hf hn
    have hrecord := hst'.events_eq fell'
    rw [hevents, List.append_left_inj, List.reverse_inj] at hrecord
    rw [hrecord]
    exact (Program.beats_prefix hm fell' s').flatMap Beat.events
  · obtain ⟨m, u, -, hends', hecho⟩ := h.exists_echo hooks hp hc hends hs hf hn
    have hrecord := (hends'.log fell').2
    rw [hecho.events, List.append_left_inj, List.reverse_inj] at hrecord
    rw [hends.beats_eq fell hk, hrecord, ← hends'.beats_eq fell' (le_max_right n m)]
    exact (Program.beats_prefix (le_max_left n m) fell' s').flatMap Beat.events

end Woven

end CilSpan
