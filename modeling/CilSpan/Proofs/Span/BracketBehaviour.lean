import CilSpan.Proofs.Machine.Confined
import CilSpan.Proofs.Span.Around

namespace CilSpan

def Outcome.suits (result : TypeName) : Outcome → Bool
  | .returned value => value.isSome = !result.isVoid
  | .threw _ => true

/-- No return stands in the protected range of a cleanup handler. -/
def Body.ReturnsUnguarded (b : Body) : Prop :=
  ∀ i ∈ b.code.zipIdx, i.1.op = .ret → ∀ r ∈ b.regions, r.handler = .cleanup →
    b.guards r i.2 = false

instance (b : Body) : Decidable b.ReturnsUnguarded :=
  inferInstanceAs (Decidable (∀ i ∈ b.code.zipIdx, _))

theorem Body.ReturnsUnguarded.lengthen {b : Body} (h : b.ReturnsUnguarded) {n : Nat} {i : Instr}
    (hi : b.lengthen.code[n]? = some i) (hop : i.op = .ret) {r : Region} (hr : r ∈ b.regions)
    (hc : r.handler = .cleanup) : b.lengthen.guards r n = false := by
  rw [Body.getElem?_lengthen] at hi
  obtain ⟨j, hj, rfl⟩ := Option.map_eq_some_iff.1 hi
  have hg := h (j, n) (List.mk_mem_zipIdx_iff_getElem?.2 hj) (Op.lengthen_eq_ret.1 hop) r hr hc
  simpa only [Body.guards, Body.position?_lengthen] using hg

def Opened (name : String) (first events events' : List Event) : Prop :=
  ∃ new, events = new ++ first ∧ events' = new ++ .enter name :: first

theorem grows_opened (name : String) (first : List Event) : Program.Grows (Opened name first) := by
  intro e a b ⟨new, ha, hb⟩
  exact ⟨e :: new, by rw [ha, List.cons_append], by rw [hb, List.cons_append]⟩

namespace Framed

variable {σ : Type} {p : Program σ} {c : Body} {result tracer : TypeName} {name : String}
  {x : Frame} {start n : Nat} {i : Instr} {s s' t : State σ} {R : List Event → List Event → Prop}

/-- A jump to the funnel goes through the cleanup handler of the span, and through no other if the
instruction that it stands for is not guarded by one. -/
theorem handlersBetween_funnel {source : Nat} (hs : start ≤ n) (hn : n < p.body.size)
    (hk : x.spot n ≤ source) (hk' : source < x.spot (n + 1))
    (hg : ∀ z ∈ p.zones, z.cleanup = true → z.guarded.covers n = false) :
    handlersBetween (p.around c x start).zones source (x.spot (p.body.size + 3)) =
      [x.spot p.body.size] := by
  have hle : x.spot p.body.size ≤ x.spot (p.body.size + 3) :=
    (strictMono_spot x).monotone (Nat.le_add_right _ _)
  rw [Program.around, handlersBetween_append,
    handlersBetween_move (strictMono_spot x) p.zones hk hk', handlersBetween_eq_nil hg,
    List.map_nil, List.nil_append,
    handlersBetween_out x (covers_zone x hs hn hk hk') hle]

section

variable (h : Framed p.body c start result name p.hooks x)
include h

theorem finishes_funnel {value : Option Value} (hn : s.position = x.spot (p.body.size + 3))
    (hs : s.stack = []) (hvoid : result.isVoid = true → value = none)
    (hval : result.isVoid = false → ∃ v, value = some v ∧ s.slots[x.slot.toNat]? = some v) :
    (p.around c x start).Finishes 2 s (.ok (.returned value)) s.heap s.world s.events := by
  have h₀ := h.getElem?_funnel (k := 0)
  have h₁ := h.getElem?_funnel (k := 1)
  rw [← hn] at h₀ h₁
  cases hr : result.isVoid with
  | true =>
    obtain rfl := hvoid hr
    simp only [funnelCode, hr, if_true] at h₀
    have hstep : (p.around c x start).step s = .ended (.returned s.stack.head?)
        { s with stack := s.stack.tail, path := ⟨s.position, x.funnel, s.stack⟩ :: s.path } :=
      Program.step_eq h₀ rfl
    rw [hs] at hstep
    exact ⟨1, _, by omega, .ended hstep, rfl, rfl, rfl⟩
  | false =>
    obtain ⟨v, rfl, hv⟩ := hval hr
    simp only [funnelCode, hr, Bool.false_eq_true, if_false] at h₀ h₁
    have hload : (p.around c x start).step s = .next { s with
        position := s.position + 1
        stack := [v]
        path := ⟨s.position, x.funnel, s.stack⟩ :: s.path } := by
      refine Program.step_eq h₀ ?_
      simp only [Program.exec, hv, hs]
      rfl
    exact ⟨2, _, le_refl 2, .cons (.inl hload) (.ended (Program.step_eq h₁ rfl)), rfl, rfl, rfl⟩

theorem alike_spot (hp : p.Loaded) (hc : c.Sound) {extra : List Value} (hR : Program.Grows R)
    (hs : s.Alike x.spot extra R s') (hf : s.Fits p) (hw : s.Within (start ≤ ·))
    (hcon : p.Confines (start ≤ ·)) (hn : s'.position = x.spot s.position)
    (hi : p.body.code[s.position]? = some i) (hop : i.op ≠ .ret) :
    Program.Alike x.spot extra R (fun o ↦ start ≤ o ∧ o < p.body.size) p (p.around c x start)
      s.position (x.spot s.position) (p.step s) ((p.around c x start).step s') := by
  refine Program.alike_step (h.embeds hc) hR hs hf hn hi (h.getElem?_spot hi hop) hp
    ⟨hw.position, (List.getElem?_eq_some_iff.1 hi).1⟩
    (fun e o k hm ↦ ⟨hw.pending _ hm, (hf.pending _ hm).1⟩) fun _ l k hbr hk ↦ ?_
  have hstart : start ≤ k := hcon.target _ i l k hw.position hi (by rw [hbr]; rfl) hk
  exact handlersBetween_inside x _ (covers_zone_spot x hstart (Body.position?_lt hk))

structure Leaving (c : Body) (result : TypeName) (x : Frame) (value : Option Value) (s : State σ) :
    Prop where
  code : ∃ l, c.code[s.position]? = some ⟨l, .branch .leave .long x.funnel⟩
  none : result.isVoid = true → value = none
  some : result.isVoid = false → ∃ v, value = some v ∧ s.slots[x.slot.toNat]? = some v

/-- A return becomes the jump to the funnel, with a store of the result in front of it. -/
theorem exists_leaving {extra : List Value} (hextra : extra = (resultLocals result).map .zero)
    (hs : s.Alike x.spot extra R s') (hf : s.Fits p) (hn : s'.position = x.spot n)
    (hi : p.body.code[n]? = some i) (hop : i.op = .ret)
    (hv : (Outcome.returned s.stack.head?).suits result = true) :
    ∃ m t, m ≤ 1 ∧ (p.around c x start).Steps m s' t ∧ Leaving c result x s.stack.head? t ∧
      x.spot n ≤ t.position ∧ t.position < x.spot (n + 1) ∧
      t.heap = s.heap ∧ t.world = s.world ∧ t.events = s'.events := by
  have hret := h.getElem?_return hi hop
  have hspot : arrival x.pieces (n + 1) ≤ x.spot (n + 1) := arrival_le_place _ _
  rw [h.arrival_spot_succ hi, if_pos hop] at hspot
  simp only [Outcome.suits, decide_eq_true_eq] at hv
  cases hr : result.isVoid with
  | true =>
    simp only [returnOp, returnRest, hr, if_true, ← hn] at hret hspot
    have hvalue : s.stack.head? = none := by simpa [hr] using hv
    have hne : result.isVoid ≠ false := by simp [hr]
    exact ⟨0, s', Nat.zero_le 1, .zero s', ⟨⟨_, hret⟩, fun _ ↦ hvalue, fun hr' ↦ absurd hr' hne⟩,
      hn.ge, hspot, hs.heap, hs.world, rfl⟩
  | false =>
    obtain ⟨v, stack, hstack⟩ : ∃ v stack, s.stack = v :: stack := by
      cases hst : s.stack with
      | nil => simp [hr, hst] at hv
      | cons v stack => exact ⟨v, stack, rfl⟩
    have hne : result.isVoid ≠ true := by simp [hr]
    obtain ⟨l, hrest⟩ := h.exists_rest hi hop hr
    simp only [returnOp, returnRest, hr, Bool.false_eq_true, if_false, ← hn,
      List.length_singleton] at hret hspot hrest
    have hslots : s'.slots = s.slots ++ [.zero result] := by
      simp [hs.slots, hextra, resultLocals, hr]
    have hslot : x.slot.toNat = s.slots.length := (h.slot hr).trans hf.slots.symm
    let s₁ : State σ := { s' with
      position := s'.position + 1
      stack
      slots := s.slots ++ [v]
      path := ⟨s'.position, i.label, s'.stack⟩ :: s'.path }
    have hstore : (p.around c x start).step s' = .next s₁ := by
      refine Program.step_eq hret ?_
      have hk : x.slot.toNat < (s.slots ++ [Value.zero result]).length := by
        rw [List.length_append, List.length_singleton]
        omega
      simp only [Program.exec, hs.stack, hstack, hslots, hk, if_true]
      rw [hslot, List.set_append_right _ _ (le_refl _), Nat.sub_self]
      simp only [List.set_cons_zero, s₁, hs.stack, hstack]
      rfl
    have hload : s₁.slots[x.slot.toNat]? = some v := by
      rw [hslot, List.getElem?_append_right (le_refl _), Nat.sub_self]
      rfl
    refine ⟨1, s₁, le_refl 1, .next hstore, ⟨⟨l, hrest⟩, fun hr' ↦ absurd hr' hne, fun _ ↦ ?_⟩,
      ?_, hspot, hs.heap, hs.world, rfl⟩
    · exact ⟨v, by rw [hstack]; rfl, hload⟩
    · rw [← hn]
      exact Nat.le_succ _

variable (hooks : p.hooks = .on tracer)
include hooks

theorem finishes_leave (hc : c.Sound) {value : Option Value} (hl : Leaving c result x value s)
    (hh : handlersBetween (p.around c x start).zones s.position (x.spot (p.body.size + 3)) =
      [x.spot p.body.size]) :
    (p.around c x start).Finishes 6 s (.ok (.returned value)) s.heap s.world
      (.exit :: s.events) := by
  obtain ⟨⟨l, hcode⟩, hvoid, hval⟩ := hl
  let s₁ : State σ := { s with
    position := x.spot p.body.size
    stack := []
    pending := .leave (x.spot (p.body.size + 3)) [] :: s.pending
    path := ⟨s.position, l, s.stack⟩ :: s.path }
  have hleave : (p.around c x start).step s = .jumped s₁ := by
    refine Program.step_eq hcode ?_
    rw [Program.exec_leave (p := p.around c x start) (h.position?_funnel hc.nodup), hh]
    rfl
  obtain ⟨path, hexit⟩ := h.steps_exit hooks (s := s₁) rfl
  have hdone := h.getElem?_done
  have hend : (p.around c x start).step { s₁ with
      position := x.spot p.body.size + 2, path, events := .exit :: s.events } = .jumped { s₁ with
        position := x.spot (p.body.size + 3)
        pending := s.pending
        path := ⟨x.spot p.body.size + 2, x.done, []⟩ :: path
        events := .exit :: s.events } := Program.step_eq hdone rfl
  refine (Program.Steps.jumped hleave).finishes (n := 5) ?_ (by omega)
  refine hexit.finishes (n := 3) ?_ (by omega)
  refine (Program.Steps.jumped hend).finishes (n := 2) ?_ (by omega)
  exact h.finishes_funnel rfl rfl hvoid hval

theorem finishes_unwind {exception : Value} {origin : Nat} {rest : List Pending}
    (hn : s.position = x.spot p.body.size)
    (hpend : s.pending = .unwind exception origin (p.zones.length + 1) :: rest) :
    (p.around c x start).Finishes 3 s (.ok (.threw exception)) s.heap s.world (.exit :: s.events) := by
  obtain ⟨path, hexit⟩ := h.steps_exit hooks hn
  have hzones : (p.around c x start).zones.length ≤ p.zones.length + 1 := by
    simp [Program.around]
  have hend : (p.around c x start).step { s with
      position := x.spot p.body.size + 2, path, events := .exit :: s.events } =
        .ended (.threw exception) { s with
          position := x.spot p.body.size + 2
          pending := rest
          path := ⟨x.spot p.body.size + 2, x.done, s.stack⟩ :: path
          events := .exit :: s.events } := by
    refine Program.step_eq h.getElem?_done ?_
    simp only [Program.exec, Program.endfinally, hpend]
    exact Program.raise_beyond hzones exception origin _
  refine hexit.finishes (n := 1) ?_ (by omega)
  exact ⟨1, _, le_refl 1, .ended hend, rfl, rfl, rfl⟩

/-- A return goes to the funnel by way of the cleanup handler of the span. -/
theorem finishes_return (hc : c.Sound) {extra : List Value}
    (hextra : extra = (resultLocals result).map .zero) (hs : s.Alike x.spot extra R s')
    (hf : s.Fits p) (hstart : start ≤ n) (hn : s'.position = x.spot n)
    (hi : p.body.code[n]? = some i) (hop : i.op = .ret)
    (hg : ∀ z ∈ p.zones, z.cleanup = true → z.guarded.covers n = false)
    (hv : (Outcome.returned s.stack.head?).suits result = true) :
    (p.around c x start).Finishes 7 s' (.ok (.returned s.stack.head?)) s.heap s.world
      (.exit :: s'.events) := by
  have hlt : n < p.body.size := (List.getElem?_eq_some_iff.1 hi).1
  obtain ⟨m, t, hm, hsteps, hl, hle, hlt', hheap, hworld, hevents⟩ :=
    h.exists_leaving hextra hs hf hn hi hop hv
  have hfin := h.finishes_leave hooks hc hl (handlersBetween_funnel hstart hlt hle hlt' hg)
  rw [hheap, hworld, hevents] at hfin
  exact hsteps.finishes hfin (by omega)

/-- The run within the span, by induction on the old one. The two states stay alike as long as the
old code runs; what ends it then leads through the cleanup handler. -/
theorem finishes_inside (hp : p.Loaded) (hc : c.Sound) {extra : List Value}
    (hextra : extra = (resultLocals result).map .zero)
    (hg : ∀ n i, p.body.code[n]? = some i → i.op = .ret → ∀ z ∈ p.zones, z.cleanup = true →
      z.guarded.covers n = false)
    (hcon : p.Confines (start ≤ ·)) {r : Except Fault Outcome} (he : p.Ends n s r t)
    {outcome : Outcome} (hr : r = .ok outcome) (hv : outcome.suits result = true)
    {first : List Event} (hs : s.Alike x.spot extra (Opened name first) s') (hf : s.Fits p)
    (hw : s.Within (start ≤ ·)) (hn : s'.position = x.spot s.position) :
    ∃ events, Opened name first t.events events ∧
      (p.around c x start).Finishes (n + 6) s' r t.heap t.world (.exit :: events) := by
  induction he generalizing s' with
  | broken => cases hr
  | @ended s t outcome' hstep =>
    obtain rfl : outcome' = outcome := Except.ok.inj hr
    obtain ⟨i, hi⟩ := Program.exists_of_step_ended hstep
    by_cases hop : i.op = .ret
    · rw [Program.step_ret hi hop] at hstep
      injection hstep with hout ht
      subst hout ht
      have hgret := hg _ i hi hop
      exact ⟨_, hs.events,
        h.finishes_return hooks hc hextra hs hf hw.position hn hi hop hgret hv⟩
    · have ha := h.alike_spot hp hc (grows_opened name first) hs hf hw hcon hn hi hop
      rw [hstep] at ha
      generalize hq : (p.around c x start).step s' = turn at ha
      cases ha with
      | returned => exact absurd (Program.step_eq_exec hi ▸ hstep) (Program.exec_ne_returned hop)
      | @threw _ s₂ _ _ hs' ho =>
        rw [raise_out ho.1 ho.2] at hq
        rw [← hs'.heap, ← hs'.world]
        refine ⟨_, hs'.events, ?_⟩
        exact (Program.Steps.jumped hq).finishes (h.finishes_unwind hooks rfl rfl) (by omega)
  | @cons m s t u r hgo he ih =>
    obtain ⟨i, hi⟩ := Program.exists_of_step_goes hgo
    have hop := Program.op_ne_ret_of_goes hi hgo
    have ha := h.alike_spot hp hc (grows_opened name first) hs hf hw hcon hn hi hop
    have hft := Program.fits_of_goes hp hf hgo
    have hwt := hcon.within_of_goes hw hgo
    generalize hq : (p.around c x start).step s' = turn at ha
    generalize hpt : p.step s = turn' at ha hgo
    cases ha with
    | @next s₁ s₂ hs' hn₁ hn₂ =>
      obtain rfl := Turn.goes_next.1 hgo
      have hstart := hw.position
      have hsucc : s₂.position = x.spot s₁.position := by
        rw [hn₂, hn₁, h.spot_succ (by omega) hi, if_neg hop]
      obtain ⟨events, hevents, hfin⟩ := ih hr hs' hft hwt hsucc
      exact ⟨events, hevents, (Program.Steps.next hq).finishes hfin (by omega)⟩
    | @jumped s₁ s₂ hs' hn' =>
      obtain rfl := Turn.goes_jumped.1 hgo
      obtain ⟨events, hevents, hfin⟩ := ih hr hs' hft hwt hn'
      exact ⟨events, hevents, (Program.Steps.jumped hq).finishes hfin (by omega)⟩
    | returned => exact absurd hgo Turn.not_goes_ended
    | threw => exact absurd hgo Turn.not_goes_ended
    | broken => exact absurd hgo Turn.not_goes_broken

end

theorem finishes_around (h : Framed p.body c 0 result name p.hooks x)
    (hooks : p.hooks = .on tracer) (hp : p.Loaded) (hc : c.Sound) {extra : List Value}
    (hextra : extra = (resultLocals result).map .zero)
    (hg : ∀ n i, p.body.code[n]? = some i → i.op = .ret → ∀ z ∈ p.zones, z.cleanup = true →
      z.guarded.covers n = false)
    {r : Except Fault Outcome} (he : p.Ends n s r t) {outcome : Outcome} (hr : r = .ok outcome)
    (hv : outcome.suits result = true) (hs : s.Alike x.spot extra (Opened name []) s')
    (hf : s.Fits p) (hn : s'.position = x.spot s.position) :
    (p.around c x 0).Finishes (n + 6) s' r t.heap t.world (.exit :: (t.events ++ [.enter name])) := by
  have hcon : p.Confines (0 ≤ ·) :=
    ⟨⟨fun _ _ _ m _ _ _ _ ↦ Nat.zero_le m, fun _ _ ↦ Nat.zero_le _⟩, fun n _ ↦ Nat.zero_le (n + 1)⟩
  have hw : s.Within (0 ≤ ·) := by
    refine ⟨Nat.zero_le _, fun y _ ↦ ?_⟩
    cases y with
    | leave target handlers => exact ⟨Nat.zero_le _, fun k _ ↦ Nat.zero_le k⟩
    | unwind exception origin nextZone => exact Nat.zero_le origin
  obtain ⟨events, ⟨new, ht, rfl⟩, hfin⟩ :=
    h.finishes_inside hooks hp hc hextra hg hcon he hr hv hs hf hw hn
  rw [ht, List.append_nil]
  exact hfin

end Framed

theorem alike_start {σ : Type} {b c : Body} {result : TypeName} {name : String}
    {hooks : Hooks} {x : Frame} (h : Framed b c 0 result name hooks x) (heap : Heap) (world : σ)
    (path : List Moment) :
    (State.start b heap world).Alike x.spot ((resultLocals result).map .zero) (Opened name [])
      { State.start c heap world with position := x.spot 0, path, events := [.enter name] } where
  stack := rfl
  slots := by simp [State.start, h.locals]
  pending := rfl
  heap := rfl
  world := rfl
  events := ⟨[], rfl, rfl⟩

/-- A body and the same body with a span around it: same outcome, same heap, same host, and the same
record with the two ends of the span around it. Eight instructions are new at most. -/
theorem bracket_preserves {σ : Type} {b b' : Body} {tracer result : TypeName} {name : String}
    (hb : b.flaw? = none) (h : b.bracket none result name (.on tracer) = (.ok (), b'))
    (hret : b.ReturnsUnguarded) (host : Host σ) (args : List Value) (budget : Nat) (heap : Heap)
    (world : σ) {e : Execution}
    (he : (b.invoke (.on tracer) host ⟨args, budget⟩ heap world).answer = .ok e)
    (hv : e.outcome.suits result = true) :
    ∃ e', b'.invoke (.on tracer) host ⟨args, budget + 8⟩ heap world =
        { b.invoke (.on tracer) host ⟨args, budget⟩ heap world with answer := .ok e' } ∧
      e'.outcome = e.outcome ∧
      e'.trace.events = .enter name :: e.trace.events ++ [.exit] := by
  obtain ⟨c, x, hlen, hc, -, hx⟩ := bracket_eq_ok h
  have hsound : b.lengthen.Sound := Body.sound_lengthen hb
  obtain ⟨zs, hzs⟩ := hsound.exists_zones
  let p : Program σ := ⟨b.lengthen, zs, .on tracer, args, host⟩
  have hp : p.Loaded := ⟨hsound, hzs⟩
  have hx' : Framed p.body c 0 result name p.hooks x := hx
  rw [← Body.invoke_lengthen b] at he ⊢
  obtain ⟨n, t, hn, hends, hinv, htrace⟩ := Body.exists_ends_of_invoke_ok hsound hzs he
  have hg : ∀ n i, p.body.code[n]? = some i → i.op = .ret → ∀ z ∈ p.zones, z.cleanup = true →
      z.guarded.covers n = false := by
    intro n i hi hop z hz hcl
    obtain ⟨r, hr, hof⟩ := exists_of_mem_forall₂ hzs hz
    rw [← Body.guards_eq_covers hof]
    exact hret.lengthen hi hop hr (by simpa [hof.cleanup] using hcl)
  obtain ⟨path, hsteps⟩ := hx'.steps_enter rfl heap world
  have hfin := hx'.finishes_around rfl hp hc rfl hg hends rfl hv
    (alike_start hx heap world path) (Program.fits_start _ _ _ _ _ heap world) rfl
  obtain ⟨m, u, hm, hu, hheap, hworld, hevents⟩ := hsteps.finishes hfin (le_refl _)
  have hbudget : m ≤ budget + 8 := by
    have hn : n ≤ budget := hn
    omega
  have hinv' : c.invoke (.on tracer) host ⟨args, budget + 8⟩ heap world =
      Body.answer (.ok e.outcome) u :=
    Body.invoke_eq_answer hc (hx'.loaded hc hp).zones hu hbudget
  refine ⟨⟨e.outcome, u.trace⟩, ?_, rfl, ?_⟩
  · rw [Body.invoke_eq_of_lengthen_eq hlen, hinv', hinv]
    simp only [Body.answer, hheap, hworld]
  · simp only [State.trace, hevents, htrace, List.reverse_cons, List.reverse_append, List.reverse_nil,
      List.nil_append, List.cons_append]

def guardedCall : Body where
  code := [⟨⟨0⟩, .call (.static ⟨"App", "Log"⟩ "Write" [] .void)⟩, ⟨⟨1⟩, .branch .leave .short ⟨4⟩⟩,
    ⟨⟨2⟩, .nop⟩, ⟨⟨3⟩, .endfinally⟩, ⟨⟨4⟩, .ldc 7⟩, ⟨⟨5⟩, .ret⟩]
  locals := []
  regions := [⟨.cleanup, ⟨0⟩, ⟨2⟩, ⟨2⟩, ⟨4⟩⟩]
  initLocals := false
  next := 6

theorem bracket_preserves_guardedCall :
    ∃ b' e', guardedCall.bracket none .int32 "span" (.on ⟨"App", "Tracer"⟩) = (.ok (), b') ∧
      b'.invoke (.on ⟨"App", "Tracer"⟩) .idle ⟨[], 14⟩ .empty () = ⟨.ok e', .empty, ()⟩ ∧
      e'.outcome = .returned (some (.int 7)) ∧
      e'.trace.events = [.enter "span", .call "App.Log::Write", .exit] := by
  have hok : (guardedCall.bracket none .int32 "span" (.on ⟨"App", "Tracer"⟩)).1 = .ok () := by
    decide +kernel
  obtain ⟨b', hb⟩ : ∃ b', guardedCall.bracket none .int32 "span" (.on ⟨"App", "Tracer"⟩) =
      (.ok (), b') := ⟨_, Prod.ext hok rfl⟩
  have he : guardedCall.invoke (.on ⟨"App", "Tracer"⟩) .idle ⟨[], 6⟩ .empty () =
      ⟨.ok ⟨.returned (some (.int 7)), ⟨[⟨0, ⟨0⟩, 0⟩, ⟨1, ⟨1⟩, 0⟩, ⟨2, ⟨2⟩, 0⟩, ⟨3, ⟨3⟩, 0⟩,
        ⟨4, ⟨4⟩, 0⟩, ⟨5, ⟨5⟩, 1⟩], [.call "App.Log::Write"]⟩⟩, .empty, ()⟩ := by rfl
  obtain ⟨e', hinv, hout, hevents⟩ := bracket_preserves (by decide) hb (by decide) .idle [] 6
    .empty () (congrArg Result.answer he) (by decide)
  rw [he] at hinv
  exact ⟨b', e', hb, hinv, hout, hevents⟩

end CilSpan
