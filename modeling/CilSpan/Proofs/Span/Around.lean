import CilSpan.Proofs.Span.Bracketed

namespace CilSpan

variable {σ : Type}

def Program.around (p : Program σ) (c : Body) (x : Frame) (start : Nat) : Program σ :=
  { p with body := c, zones := p.zones.map (Zone.move x.spot) ++ [x.zone start p.body.size] }

namespace Framed

variable {p : Program σ} {c : Body} {result tracer : TypeName} {name : String} {x : Frame}
  {start n k : Nat} {s s' : State σ}

theorem covers_zone (x : Frame) {size : Nat} (hs : start ≤ n) (hn : n < size) (hk : x.spot n ≤ k)
    (hk' : k < x.spot (n + 1)) : (x.zone start size).guarded.covers k = true := by
  have h₀ : x.spot start ≤ x.spot n := (strictMono_spot x).monotone hs
  have h₁ : x.spot (n + 1) ≤ x.spot size := (strictMono_spot x).monotone hn
  exact decide_eq_true ⟨h₀.trans hk, hk'.trans_le h₁⟩

theorem covers_zone_spot (x : Frame) {size : Nat} (hs : start ≤ n) (hn : n < size) :
    (x.zone start size).guarded.covers (x.spot n) = true :=
  covers_zone x hs hn (le_refl _) (strictMono_spot x n.lt_succ_self)

theorem not_covers_zone (x : Frame) {size : Nat} (hk : x.spot size ≤ k) :
    (x.zone start size).guarded.covers k = false :=
  decide_eq_false fun hlt ↦ Nat.not_lt_of_le hk hlt.2

theorem not_covers_zone_of_lt (x : Frame) {size : Nat} (hk : k < x.spot start) :
    (x.zone start size).guarded.covers k = false :=
  decide_eq_false fun hle ↦ Nat.not_le_of_lt hk hle.1

theorem handlersBetween_inside (x : Frame) {size target : Nat} (source : Nat)
    (ht : (x.zone start size).guarded.covers target = true) :
    handlersBetween [x.zone start size] source target = [] := by
  simp only [handlersBetween, List.filter_cons, ht, Bool.not_true, Bool.and_false,
    Bool.false_eq_true, if_false, List.filter_nil, List.map_nil]

theorem handlersBetween_out (x : Frame) {size source : Nat}
    (hs : (x.zone start size).guarded.covers source = true) (hk : x.spot size ≤ k) :
    handlersBetween [x.zone start size] source k = [x.spot size] := by
  simp only [handlersBetween, List.filter_cons, hs, not_covers_zone x hk, Bool.not_false,
    Bool.and_true, List.filter_nil]
  rfl

section

variable (h : Framed p.body c start result name p.hooks x) (hc : c.Sound)
include h hc

theorem loaded (hp : p.Loaded) : (p.around c x start).Loaded :=
  ⟨hc, h.zones_of hp.sound.nodup hc.nodup hp.zones⟩

theorem embeds : Program.Embeds x.spot [x.zone start p.body.size] p (p.around c x start) :=
  h.spliced.embeds h.code hc.nodup p.zones [x.zone start p.body.size] p.hooks p.args p.host

end

/-- An exception that the old zones let pass goes to the cleanup handler of the span. -/
theorem raise_out (hn : start ≤ n) (ho : n < p.body.size) (exception : Value) (s : State σ) :
    (p.around c x start).raise exception (x.spot n) p.zones.length s = .jumped { s with
      position := x.spot p.body.size
      stack := []
      pending := .unwind exception (x.spot n) (p.zones.length + 1) :: s.pending } := by
  have hg : guardian? (p.around c x start).zones (x.spot n) p.zones.length =
      some (x.zone start p.body.size, p.zones.length) := by
    have hd : (p.around c x start).zones.zipIdx.drop p.zones.length =
        [(x.zone start p.body.size, p.zones.length)] := by
      simp [Program.around, List.zipIdx_append]
    simp only [guardian?, hd, List.find?_cons, covers_zone_spot x hn ho]
  simp only [Program.raise, hg]
  rfl

section

variable (h : Framed p.body c start result name p.hooks x) (hooks : p.hooks = .on tracer)
include h hooks

omit hooks in
theorem step_name (hn : s.position = arrival x.pieces start) :
    ∃ l, (p.around c x start).step s = .next { s with
      position := s.position + 1
      stack := .str name :: s.stack
      path := ⟨s.position, l, s.stack⟩ :: s.path } := by
  obtain ⟨l, -, -, hcode, -⟩ := h.exists_front
  exact ⟨l, Program.step_eq (hn ▸ hcode) rfl⟩

theorem step_enter {stack : List Value} (hn : s.position = arrival x.pieces start + 1)
    (hs : s.stack = .str name :: stack) :
    ∃ l, (p.around c x start).step s = .next { s with
      position := s.position + 1
      stack
      path := ⟨s.position, l, s.stack⟩ :: s.path
      events := .enter name :: s.events } := by
  obtain ⟨-, l, -, -, hcode⟩ := h.exists_front
  rw [← hn] at hcode
  have hpop : popArgs? s.stack p.hooks.enter.arity = some ([.str name], stack) := by
    rw [hooks, hs]
    simp [popArgs?, Hooks.on, Hook.callee, Hook.params, Callee.arity, Callee.static]
  have hk : p.hooks.hook? p.hooks.enter = some .enter := hooks ▸ hook?_on tracer .enter
  refine ⟨l, Program.step_eq hcode ?_⟩
  exact Program.invoke_hook (p := p.around c x start) hpop hk rfl

theorem steps_begin (hn : s.position = arrival x.pieces start) :
    ∃ path, (p.around c x start).Steps 2 s
      { s with position := x.spot start, path, events := .enter name :: s.events } := by
  obtain ⟨-, -, hspot, -⟩ := h.exists_front
  obtain ⟨l, hname⟩ := h.step_name hn
  obtain ⟨l', henter⟩ := h.step_enter hooks (s := { s with
    position := s.position + 1
    stack := .str name :: s.stack
    path := ⟨s.position, l, s.stack⟩ :: s.path }) (congrArg (· + 1) hn) rfl
  have hsteps := (Program.Steps.next hname).trans (.next henter)
  rw [hn, ← hspot] at hsteps
  exact ⟨_, hsteps⟩

omit hooks in
theorem step_marker (hn : s.position = x.spot p.body.size) :
    (p.around c x start).step s = .next { s with
      position := s.position + 1, path := ⟨s.position, x.marker, s.stack⟩ :: s.path } :=
  Program.step_eq (hn ▸ h.getElem?_marker) rfl

theorem step_exit (hn : s.position = x.spot p.body.size + 1) :
    (p.around c x start).step s = .next { s with
      position := s.position + 1
      path := ⟨s.position, x.exit, s.stack⟩ :: s.path
      events := .exit :: s.events } := by
  have hpop : popArgs? s.stack p.hooks.exit.arity = some ([], s.stack) := by
    rw [hooks]
    exact if_pos (Nat.zero_le _)
  have hk : p.hooks.hook? p.hooks.exit = some .exit := hooks ▸ hook?_on tracer .exit
  refine Program.step_eq (hn ▸ h.getElem?_exit) ?_
  exact Program.invoke_hook (p := p.around c x start) hpop hk rfl

theorem steps_exit (hn : s.position = x.spot p.body.size) :
    ∃ path, (p.around c x start).Steps 2 s
      { s with position := x.spot p.body.size + 2, path, events := .exit :: s.events } := by
  have hmarker := h.step_marker hn
  rw [hn] at hmarker
  exact ⟨_, .trans (.next hmarker) (.next (h.step_exit hooks rfl))⟩

end

theorem steps_enter (h : Framed p.body c 0 result name p.hooks x) (hooks : p.hooks = .on tracer)
    (heap : Heap) (world : σ) :
    ∃ path, (p.around c x 0).Steps 2 (.start c heap world)
      { State.start c heap world with position := x.spot 0, path, events := [.enter name] } :=
  h.steps_begin hooks arrival_zero.symm

end Framed

end CilSpan
