import CilSpan.Proofs.Machine.Beats
import CilSpan.Proofs.Span.BracketBehaviour
import CilSpan.Proofs.Span.ConstructorOrder

namespace CilSpan

/-- Nothing leads past the position: no region begins or ends up to it, and no branch goes from one
side to the other. -/
structure Body.Severed (b : Body) (k : Nat) : Prop where
  region : ∀ r ∈ b.regions, ∀ l ∈ r.boundaries, ∀ m ∈ b.position? l, k < m
  branch : ∀ i ∈ b.code.zipIdx, ∀ l ∈ i.1.op.target?, ∀ m ∈ b.position? l, i.2 ≤ k ↔ m ≤ k

/-- A run that goes on behind position `k`: up to there in `front`, and from then on in `back`. -/
structure Passes (k : Nat) (front back : List Beat) : Prop where
  before : ∀ v ∈ front, v.moment.position ≤ k
  behind : ∀ v ∈ back, k < v.moment.position
  last : ∃ v ∈ front.getLast?, v.moment.position = k
  first : ∃ v ∈ back.head?, v.fell = true ∧ v.moment.position = k + 1

theorem Passes.cons {k : Nat} {v : Beat} {front back : List Beat} (h : Passes k front back)
    (hv : v.moment.position ≤ k) : Passes k (v :: front) back where
  before := List.forall_mem_cons.2 ⟨hv, h.before⟩
  behind := h.behind
  last := by
    obtain ⟨u, hu, hk⟩ := h.last
    exact ⟨u, List.mem_getLast?_cons hu, hk⟩
  first := h.first

theorem Passes.eq_filter {k : Nat} {front back : List Beat} (h : Passes k front back) :
    front = (front ++ back).filter (fun v ↦ v.moment.position ≤ k) ∧
      back = (front ++ back).filter (fun v ↦ k < v.moment.position) := by
  have hfront : front.filter (fun v ↦ k < v.moment.position) = [] :=
    List.filter_eq_nil_iff.2 fun v hv ↦ by simpa using h.before v hv
  have hback : back.filter (fun v ↦ v.moment.position ≤ k) = [] :=
    List.filter_eq_nil_iff.2 fun v hv ↦ by simpa using h.behind v hv
  rw [List.filter_append, List.filter_append, hfront, hback, List.append_nil, List.nil_append]
  refine ⟨(List.filter_eq_self.2 fun v hv ↦ ?_).symm, (List.filter_eq_self.2 fun v hv ↦ ?_).symm⟩
  · simpa using h.before v hv
  · simpa using h.behind v hv

namespace Body.Severed

variable {b : Body} {k : Nat}

theorem lengthen (h : b.Severed k) : b.lengthen.Severed k where
  region r hr l hl m hm := h.region r hr l hl m (b.position?_lengthen l ▸ hm)
  branch := by
    rintro ⟨i, n⟩ hi l hl m hm
    rw [List.mk_mem_zipIdx_iff_getElem?, getElem?_lengthen] at hi
    obtain ⟨j, hj, rfl⟩ := Option.map_eq_some_iff.1 hi
    rw [Op.target?_lengthen] at hl
    rw [position?_lengthen] at hm
    exact h.branch (j, n) (List.mk_mem_zipIdx_iff_getElem?.2 hj) l hl m hm

theorem branch_iff (h : b.Severed k) {n m : Nat} {i : Instr} {l : Label} (hi : b.code[n]? = some i)
    (hl : i.op.target? = some l) (hm : b.position? l = some m) : n ≤ k ↔ m ≤ k :=
  h.branch (i, n) (List.mk_mem_zipIdx_iff_getElem?.2 hi) l hl m hm

variable {σ : Type} {p : Program σ}

theorem confines (h : p.body.Severed k) (hp : p.Loaded) : p.Confines (k + 1 ≤ ·) where
  next _ hn := Nat.le_succ_of_le hn
  target n i l m hn hi hl hm := by
    have hiff := h.branch_iff hi hl hm
    omega
  handler z hz := by
    obtain ⟨r, hr, hof⟩ := exists_of_mem_forall₂ hp.zones hz
    exact h.region r hr _ (by simp [Region.boundaries]) _ hof.handlerStart

theorem unguarded (h : p.body.Severed k) (hp : p.Loaded) {n : Nat} (hn : n ≤ k) :
    ∀ z ∈ p.zones, z.guarded.covers n = false := by
  intro z hz
  obtain ⟨r, hr, hof⟩ := exists_of_mem_forall₂ hp.zones hz
  have hlt := h.region r hr _ (by simp [Region.boundaries]) _ hof.start
  exact decide_eq_false fun hcov ↦ by omega

end Body.Severed

namespace Framed

variable {σ : Type} {p : Program σ} {c : Body} {result tracer : TypeName} {name : String}
  {x : Frame} {start k n m : Nat} {i : Instr} {s s' t u u' : State σ}
  {R : List Event → List Event → Prop}

/-- What stands for an unguarded instruction in front of the span is unguarded. -/
theorem unguarded_around (hz : ∀ z ∈ p.zones, z.guarded.covers n = false) (hn : n < start)
    (hm : x.spot n ≤ m) (hm' : m < x.spot (n + 1)) :
    ∀ z ∈ (p.around c x start).zones, z.guarded.covers m = false := by
  intro z hz'
  obtain hz' | hz' := List.mem_append.1 hz'
  · obtain ⟨y, hy, rfl⟩ := List.mem_map.1 hz'
    exact (covers_move_of_between (strictMono_spot x) y.guarded hm hm').trans (hz y hy)
  · obtain rfl := List.mem_singleton.1 hz'
    exact not_covers_zone_of_lt x (hm'.trans_le ((strictMono_spot x).monotone hn))

theorem unguarded_spot (hz : ∀ z ∈ p.zones, z.guarded.covers n = false) (hn : n < start) :
    ∀ z ∈ (p.around c x start).zones, z.guarded.covers (x.spot n) = false :=
  unguarded_around hz hn (le_refl _) (strictMono_spot x n.lt_succ_self)

section

variable (h : Framed p.body c start result name p.hooks x)
include h

theorem finishes_leave_unguarded (hc : c.Sound) {value : Option Value}
    (hl : Leaving c result x value s)
    (hz : ∀ z ∈ (p.around c x start).zones, z.guarded.covers s.position = false) :
    (p.around c x start).Finishes 3 s (.ok (.returned value)) s.heap s.world s.events := by
  obtain ⟨⟨l, hcode⟩, hvoid, hval⟩ := hl
  have hleave : (p.around c x start).step s = .jumped { s with
      position := x.spot (p.body.size + 3)
      stack := []
      path := ⟨s.position, l, s.stack⟩ :: s.path } := by
    refine Program.step_eq hcode ?_
    rw [Program.exec_leave (p := p.around c x start) (h.position?_funnel hc.nodup),
      handlersBetween_eq_nil fun z hm _ ↦ hz z hm]
    rfl
  refine (Program.Steps.jumped hleave).finishes (n := 2) ?_ (by omega)
  exact h.finishes_funnel rfl rfl hvoid hval

theorem finishes_return_unguarded (hc : c.Sound) {extra : List Value}
    (hextra : extra = (resultLocals result).map .zero) (hs : s.Alike x.spot extra R s')
    (hf : s.Fits p) (hstart : n < start) (hn : s'.position = x.spot n)
    (hi : p.body.code[n]? = some i) (hop : i.op = .ret)
    (hz : ∀ z ∈ p.zones, z.guarded.covers n = false)
    (hv : (Outcome.returned s.stack.head?).suits result = true) :
    (p.around c x start).Finishes 4 s' (.ok (.returned s.stack.head?)) s.heap s.world
      s'.events := by
  obtain ⟨m, t, hm, hsteps, hl, hle, hlt, hheap, hworld, hevents⟩ :=
    h.exists_leaving hextra hs hf hn hi hop hv
  have hfin := h.finishes_leave_unguarded hc hl (unguarded_around hz hstart hle hlt)
  rw [hheap, hworld, hevents] at hfin
  exact hsteps.finishes hfin (by omega)

theorem alike_unguarded (hp : p.Loaded) (hc : c.Sound) {extra : List Value} (hR : Program.Grows R)
    (hs : s.Alike x.spot extra R s') (hf : s.Fits p) (hpend : s.pending = [])
    (hstart : s.position < start) (hn : s'.position = x.spot s.position)
    (hi : p.body.code[s.position]? = some i) (hop : i.op ≠ .ret) :
    Program.Alike x.spot extra R (· = s.position) p (p.around c x start) s.position
      (x.spot s.position) (p.step s) ((p.around c x start).step s') := by
  refine Program.alike_step (h.embeds hc) hR hs hf hn hi (h.getElem?_spot hi hop) hp rfl
    (by simp [hpend]) fun _ _ _ _ _ ↦ handlersBetween_eq_nil fun z hz _ ↦ ?_
  obtain rfl := List.mem_singleton.1 hz
  exact not_covers_zone_of_lt x (strictMono_spot x hstart)

theorem finishes_ended_unguarded (hp : p.Loaded) (hc : c.Sound) {extra : List Value}
    (hextra : extra = (resultLocals result).map .zero) (hR : Program.Grows R)
    (hs : s.Alike x.spot extra R s') (hf : s.Fits p) (hpend : s.pending = [])
    (hstart : s.position < start) (hn : s'.position = x.spot s.position)
    (hz : ∀ z ∈ p.zones, z.guarded.covers s.position = false) {outcome : Outcome}
    (hstep : p.step s = .ended outcome t) (hv : outcome.suits result = true) :
    ∃ events, R t.events events ∧
      (p.around c x start).Finishes 4 s' (.ok outcome) t.heap t.world events := by
  obtain ⟨i, hi⟩ := Program.exists_of_step_ended hstep
  by_cases hop : i.op = .ret
  · rw [Program.step_ret hi hop] at hstep
    injection hstep with hout ht
    subst hout ht
    exact ⟨_, hs.events, h.finishes_return_unguarded hc hextra hs hf hstart hn hi hop hz hv⟩
  · have ha := h.alike_unguarded hp hc hR hs hf hpend hstart hn hi hop
    rw [hstep] at ha
    generalize hq : (p.around c x start).step s' = turn at ha
    cases ha with
    | returned => exact absurd (Program.step_eq_exec hi ▸ hstep) (Program.exec_ne_returned hop)
    | @threw _ s₂ _ _ hs' ho =>
      rw [ho, Program.raise_unguarded (unguarded_spot hz hstart)] at hq
      exact ⟨_, hs'.events, 1, s₂, by omega, .ended hq, hs'.heap, hs'.world, rfl⟩

end

/-- How the bracketed constructor runs from `s'` when the old one has these beats and ends so: with a
span from the call on, or, if control does not come behind the call, without one. -/
inductive Mirrored (q : Program σ) (k : Nat) (name : String) (n : Nat) (beats : List Beat)
    (first : List Event) (s' : State σ) (r : Except Fault Outcome) (t : State σ) : Prop
  | passed {front back : List Beat} (hbeats : beats = front ++ back) (hpass : Passes k front back)
      (hf : q.Finishes (n + 8) s' r t.heap t.world (.exit :: ((back.flatMap Beat.events).reverse ++
        .enter name :: ((front.flatMap Beat.events).reverse ++ first))))
  | stayed (hbeats : ∀ v ∈ beats, v.moment.position ≤ k)
      (hf : q.Finishes (n + 3) s' r t.heap t.world t.events)

theorem Mirrored.cons {q : Program σ} {v : Beat} {beats : List Beat} {first second : List Event}
    {u : State σ} {r : Except Fault Outcome} (h : Mirrored q k name n beats second u r t)
    (hevents : second = v.events.reverse ++ first) (hstep : q.Steps 1 s' u)
    (hv : v.moment.position ≤ k) : Mirrored q k name (n + 1) (v :: beats) first s' r t := by
  subst hevents
  cases h with
  | @passed front back hbeats hpass hf =>
    have hcons : v :: beats = (v :: front) ++ back := congrArg _ hbeats
    refine .passed hcons (hpass.cons hv) ?_
    rw [List.flatMap_cons, List.reverse_append, List.append_assoc]
    exact hstep.finishes hf (by omega)
  | stayed hbeats hf =>
    exact .stayed (List.forall_mem_cons.2 ⟨hv, hbeats⟩) (hstep.finishes hf (by omega))

section

variable (h : Framed p.body c (k + 1) result name p.hooks x) (hooks : p.hooks = .on tracer)
  (hp : p.Loaded) (hc : c.Sound) {extra : List Value}
  (hextra : extra = (resultLocals result).map .zero)
  (hg : ∀ n i, p.body.code[n]? = some i → i.op = .ret → ∀ z ∈ p.zones, z.cleanup = true →
    z.guarded.covers n = false)
  (hsev : p.body.Severed k)
include h hooks hp hc hextra hg hsev

theorem finishes_behind {r : Except Fault Outcome} (he : p.Ends n s r t) {outcome : Outcome}
    (hr : r = .ok outcome) (hv : outcome.suits result = true) (hs : s.Alike x.spot extra Eq s')
    (hf : s.Fits p) (hpend : s.pending = []) (hk : s.position = k + 1)
    (hn : s'.position = arrival x.pieces (k + 1)) :
    (p.around c x (k + 1)).Finishes (n + 8) s' r t.heap t.world
      (.exit :: (((p.beats n true s).flatMap Beat.events).reverse ++ .enter name :: s.events)) := by
  obtain ⟨path, hbegin⟩ := h.steps_begin hooks hn
  have hw : s.Within (k + 1 ≤ ·) := ⟨hk.ge, by simp [hpend]⟩
  have hs' : s.Alike x.spot extra (Opened name s.events) { s' with
      position := x.spot (k + 1), path, events := .enter name :: s'.events } :=
    ⟨hs.stack, hs.slots, hs.pending, hs.heap, hs.world, [], rfl, congrArg _ hs.events.symm⟩
  obtain ⟨events, ⟨new, ht, rfl⟩, hfin⟩ := h.finishes_inside hooks hp hc hextra hg
    (hsev.confines hp) he hr hv hs' hf hw (hk ▸ rfl)
  obtain rfl := List.append_cancel_right (ht.symm.trans (he.log true).2)
  exact hbegin.finishes hfin (by omega)

/-- The handover: control goes on behind the call, and so comes to the start of the span. -/
theorem mirrored_call {r : Except Fault Outcome} (he : p.Ends n u r t) {outcome : Outcome}
    (hr : r = .ok outcome) (hv : outcome.suits result = true) (hs : u.Alike x.spot extra Eq u')
    (hf : u.Fits p) (hpend : u.pending = []) (hk : u.position = k + 1)
    (hn : u'.position = arrival x.pieces (k + 1)) (hq : (p.around c x (k + 1)).Steps 1 s' u')
    {v : Beat} (hbeat : v.moment.position = k) (hevents : u.events = v.events.reverse ++ s.events) :
    Mirrored (p.around c x (k + 1)) k name (n + 1) (v :: p.beats n true u) s.events s' r t := by
  have hfin := h.finishes_behind hooks hp hc hextra hg hsev he hr hv hs hf hpend hk hn
  have hw : u.Within (k + 1 ≤ ·) := ⟨hk.ge, by simp [hpend]⟩
  obtain ⟨w, hhead, hfell, hw'⟩ := (hr ▸ he).exists_head_beats true
  have hpass : Passes k [v] (p.beats n true u) :=
    ⟨by simp [hbeat], (hsev.confines hp).of_mem_beats hw, ⟨v, rfl, hbeat⟩, w, hhead, hfell,
      hw'.trans hk⟩
  refine .passed List.singleton_append.symm hpass ?_
  rw [List.flatMap_singleton, ← hevents]
  exact hq.finishes hfin (by omega)

/-- The run up to the call, by induction on the old one. -/
theorem mirrored_of_ends {r : Except Fault Outcome} (he : p.Ends n s r t) {outcome : Outcome}
    (hr : r = .ok outcome) (hv : outcome.suits result = true) (hs : s.Alike x.spot extra Eq s')
    (hf : s.Fits p) (hpend : s.pending = []) (hk : s.position ≤ k)
    (hn : s'.position = x.spot s.position) (fell : Bool) :
    Mirrored (p.around c x (k + 1)) k name n (p.beats n fell s) s.events s' r t := by
  have hR : Program.Grows Eq := fun e a b hab ↦ congrArg (e :: ·) hab
  induction he generalizing s' fell with
  | broken => cases hr
  | @ended s t outcome' hstep =>
    obtain rfl : outcome' = outcome := Except.ok.inj hr
    obtain ⟨i, hi⟩ := Program.exists_of_step_ended hstep
    obtain ⟨events, rfl, hfin⟩ := h.finishes_ended_unguarded hp hc hextra hR hs hf hpend
      (Nat.lt_succ_of_le hk) hn (hsev.unguarded hp hk) hstep hv
    rw [Program.beats_ended hi 0 fell hstep]
    exact .stayed (by simpa using hk) hfin
  | @cons m s t u r hgo he ih =>
    obtain ⟨i, hi⟩ := Program.exists_of_step_goes hgo
    have hop := Program.op_ne_ret_of_goes hi hgo
    have hft := Program.fits_of_goes hp hf hgo
    have ha := h.alike_unguarded hp hc hR hs hf hpend (Nat.lt_succ_of_le hk) hn hi hop
    obtain ⟨-, new, hnew, -⟩ := Program.logs_step hi
    rw [Turn.state_of_goes hgo] at hnew
    have hevents := State.events_eq_news hnew
    obtain ⟨hpend', ⟨hstep, hposition⟩ | ⟨hstep, l, hl, ht⟩⟩ :=
      Program.goes_unguarded (hsev.unguarded hp hk) rfl hi hpend hgo
    · rw [hstep] at ha
      generalize hq : (p.around c x (k + 1)).step s' = turn at ha
      cases ha with
      | @next _ u hs' _ hn' =>
        have harrival : u.position = arrival x.pieces (s.position + 1) := by
          rw [hn', h.arrival_spot_succ hi, if_neg hop]
        rw [Program.beats_next hi m fell hstep]
        rcases Nat.lt_or_eq_of_le hk with hlt | heq
        · have hsucc : u.position = x.spot t.position := by
            rw [harrival, hposition, h.arrival_eq_spot (by omega)]
          exact (ih hr hs' hft hpend' (by omega) hsucc true).cons hevents (.next hq) hk
        · exact h.mirrored_call hooks hp hc hextra hg hsev he hr hv hs' hft hpend' (heq ▸ hposition)
            (heq ▸ harrival) (.next hq) heq hevents
    · rw [hstep] at ha
      generalize hq : (p.around c x (k + 1)).step s' = turn at ha
      cases ha with
      | @jumped _ u hs' hn' =>
        have hle : t.position ≤ k := (hsev.branch_iff hi hl ht).1 hk
        rw [Program.beats_jumped hi m fell hstep]
        exact (ih hr hs' hft hpend' hle hn' false).cons hevents (.jumped hq) hk

end

end Framed

theorem Body.ChainsAt.exists_call {b : Body} {base : TypeName} {k : Nat} {callee : Callee}
    (h : b.ChainsAt base k callee) : ∃ l, b.lengthen.code[k]? = some ⟨l, .call callee⟩ := by
  obtain ⟨⟨l, op⟩, hi, rfl⟩ := Option.map_eq_some_iff.1 h.2
  refine ⟨l, ?_⟩
  rw [getElem?_lengthen, hi]
  rfl

theorem Body.ReturnsUnguarded.not_covers {b : Body} (h : b.ReturnsUnguarded) {zs : List Zone}
    (hzs : List.Forall₂ (Zone.Of b.lengthen) b.regions zs) {n : Nat} {i : Instr}
    (hi : b.lengthen.code[n]? = some i) (hop : i.op = .ret) :
    ∀ z ∈ zs, z.cleanup = true → z.guarded.covers n = false := by
  intro z hz hcl
  obtain ⟨r, hr, hof⟩ := exists_of_mem_forall₂ hzs hz
  rw [← Body.guards_eq_covers hof]
  exact h.lengthen hi hop hr (by simpa [hof.cleanup] using hcl)

section

variable {σ : Type} {b b' c : Body} {tracer base result : TypeName} {name : String} {x : Frame}
  {k : Nat} {callee : Callee} {host : Host σ} {call : Invocation} {heap : Heap} {world : σ}
  {e : Execution}

/-- Each start of a span comes right after the call. -/
theorem constructor_ordered (hb : b.flaw? = none) (hfree : b.hooked? (.on tracer) = none)
    (hchain : b.ChainsAt base k callee) (hc : c.Sound)
    (hx : Framed b.lengthen c (k + 1) result name (.on tracer) x)
    (he : (c.invoke (.on tracer) host call heap world).answer = .ok e) {front back : List Event}
    {n : String} (hevents : e.trace.events = front ++ .enter n :: back) :
    n = name ∧ front.getLast? = some (callEvent callee) := by
  have hsound : b.lengthen.Sound := Body.sound_lengthen hb
  obtain ⟨zs, hzs⟩ := hsound.exists_zones
  let p : Program σ := ⟨b.lengthen, zs, .on tracer, call.args, host⟩
  have hp : p.Loaded := ⟨hsound, hzs⟩
  have hx' : Framed p.body c (k + 1) result name p.hooks x := hx
  have hfree' : p.body.hooked? p.hooks = none := (Body.hooked?_lengthen b _).trans hfree
  obtain ⟨l, hi⟩ := hchain.exists_call
  obtain ⟨n, t, -, hends, -, htrace⟩ :=
    Body.exists_ends_of_invoke_ok hc (hx'.loaded hc hp).zones he
  have hordered := hx'.ordered_of_ends hp hc hfree' hi rfl (hx'.poised_start hi heap world) hends
  exact hordered.getLast?_of_reverse ((congrArg Trace.events htrace).symm.trans hevents)

inductive SpannedFrom (k : Nat) (name : String) (beats : List Beat) (events events' : List Event) :
    Prop
  | passed {front back : List Beat} (hbeats : beats = front ++ back) (hpass : Passes k front back)
      (hold : events = front.flatMap Beat.events ++ back.flatMap Beat.events)
      (hnew : events' = front.flatMap Beat.events ++ .enter name ::
        (back.flatMap Beat.events ++ [.exit]))
  | stayed (hbeats : ∀ v ∈ beats, v.moment.position ≤ k) (hnew : events' = events)

theorem constructor_preserves (hb : b.flaw? = none) (hc : c.Sound)
    (hx : Framed b.lengthen c (k + 1) result name (.on tracer) x) (hsev : b.Severed k)
    (hret : b.ReturnsUnguarded)
    (he : (b.invoke (.on tracer) host call heap world).answer = .ok e)
    (hv : e.outcome.suits result = true) :
    ∃ e', c.invoke (.on tracer) host ⟨call.args, call.budget + 8⟩ heap world =
        { b.invoke (.on tracer) host call heap world with answer := .ok e' } ∧
      e'.outcome = e.outcome ∧ SpannedFrom k name (b.beats (.on tracer) host call heap world)
        e.trace.events e'.trace.events := by
  have hsound : b.lengthen.Sound := Body.sound_lengthen hb
  obtain ⟨zs, hzs⟩ := hsound.exists_zones
  let p : Program σ := ⟨b.lengthen, zs, .on tracer, call.args, host⟩
  have hp : p.Loaded := ⟨hsound, hzs⟩
  have hx' : Framed p.body c (k + 1) result name p.hooks x := hx
  rw [← Body.invoke_lengthen b] at he ⊢
  obtain ⟨n, t, hn, hends, hinv, htrace⟩ := Body.exists_ends_of_invoke_ok hsound hzs he
  have hevents := (Body.trace_eq_beats hsound he).2
  have hstart : 0 = x.spot 0 :=
    arrival_zero.symm.trans (hx'.arrival_eq_spot (Nat.succ_ne_zero k).symm)
  have halike : (State.start b.lengthen heap world).Alike x.spot ((resultLocals result).map .zero)
      Eq (State.start c heap world) :=
    ⟨rfl, by simp [State.start, hx.locals], rfl, rfl, rfl, rfl⟩
  have hm := hx'.mirrored_of_ends rfl hp hc rfl (fun _ _ ↦ hret.not_covers hzs) hsev.lengthen hends
    rfl hv halike (Program.fits_start _ _ _ _ _ heap world) rfl (Nat.zero_le k) hstart true
  rw [← hends.beats_eq true hn, ← Body.beats_eq hzs] at hm
  have hzones := (hx'.loaded hc hp).zones
  have hbudget : n + 8 ≤ call.budget + 8 := Nat.add_le_add_right hn 8
  rw [← Body.beats_lengthen, hinv]
  cases hm with
  | passed hbeats hpass hfin =>
    obtain ⟨e', he', hout, htr⟩ := Body.exists_answer_of_finishes hc hzones hfin hbudget
    refine ⟨e', he', hout, .passed hbeats hpass ?_ ?_⟩
    · rw [hevents, Body.record, hbeats, List.flatMap_append]
    · rw [htr]
      simp [State.start]
  | stayed hbeats hfin =>
    have hbudget' : n + 3 ≤ call.budget + 8 := by omega
    obtain ⟨e', he', hout, htr⟩ := Body.exists_answer_of_finishes hc hzones hfin hbudget'
    refine ⟨e', he', hout, .stayed hbeats ?_⟩
    rw [htr, htrace]
    rfl

/-- In a bracketed constructor the span begins right after the call that hands construction on. If
nothing leads past that call but the call itself, the constructor behaves as before, with the span
around all that it records from there on. -/
theorem bracket_constructor (hb : b.flaw? = none)
    (h : b.bracket (some base) result name (.on tracer) = (.ok (), b')) (host : Host σ) :
    ∃ k callee, b.ChainsAt base k callee ∧
      (∀ call heap world e, (b'.invoke (.on tracer) host call heap world).answer = .ok e →
        ∀ front n back, e.trace.events = front ++ .enter n :: back →
          n = name ∧ front.getLast? = some (callEvent callee)) ∧
      (b.Severed k → b.ReturnsUnguarded → ∀ args budget heap world e,
        (b.invoke (.on tracer) host ⟨args, budget⟩ heap world).answer = .ok e →
        e.outcome.suits result = true →
        ∃ e', b'.invoke (.on tracer) host ⟨args, budget + 8⟩ heap world =
            { b.invoke (.on tracer) host ⟨args, budget⟩ heap world with answer := .ok e' } ∧
          e'.outcome = e.outcome ∧
          SpannedFrom k name (b.beats (.on tracer) host ⟨args, budget⟩ heap world) e.trace.events
            e'.trace.events) := by
  obtain ⟨k, callee, c, x, hchain, hlen, hc, hfree, hx⟩ := bracket_base_eq_ok h
  refine ⟨k, callee, hchain, fun call heap world e he front n back hevents ↦ ?_,
    fun hsev hret args budget heap world e he hv ↦ ?_⟩
  · rw [Body.invoke_eq_of_lengthen_eq hlen] at he
    exact constructor_ordered hb hfree hchain hc hx he hevents
  · rw [Body.invoke_eq_of_lengthen_eq hlen]
    exact constructor_preserves hb hc hx hsev hret he hv

end

def guardedConstructor : Body where
  code := [⟨⟨0⟩, .ldarg 0⟩, ⟨⟨1⟩, .call (.constructor ⟨"App", "Base"⟩ [])⟩,
    ⟨⟨2⟩, .call (.static ⟨"App", "Log"⟩ "Write" [] .void)⟩, ⟨⟨3⟩, .branch .leave .short ⟨5⟩⟩,
    ⟨⟨4⟩, .endfinally⟩, ⟨⟨5⟩, .ret⟩]
  locals := []
  regions := [⟨.cleanup, ⟨2⟩, ⟨4⟩, ⟨4⟩, ⟨5⟩⟩]
  initLocals := false
  next := 6

theorem bracket_constructor_guarded :
    ∃ b' e', guardedConstructor.bracket (some ⟨"App", "Base"⟩) .void "new"
        (.on ⟨"App", "Tracer"⟩) = (.ok (), b') ∧
      b'.invoke (.on ⟨"App", "Tracer"⟩) .idle ⟨[.object 0], 14⟩ .empty () = ⟨.ok e', .empty, ()⟩ ∧
      e'.outcome = .returned none ∧
      e'.trace.events =
        [.call "App.Base::.ctor", .enter "new", .call "App.Log::Write", .exit] ∧
      ∀ front n back, e'.trace.events = front ++ .enter n :: back →
        front.getLast? = some (.call "App.Base::.ctor") := by
  have hok : (guardedConstructor.bracket (some ⟨"App", "Base"⟩) .void "new"
      (.on ⟨"App", "Tracer"⟩)).1 = .ok () := by decide +kernel
  obtain ⟨b', hb⟩ : ∃ b', guardedConstructor.bracket (some ⟨"App", "Base"⟩) .void "new"
      (.on ⟨"App", "Tracer"⟩) = (.ok (), b') := ⟨_, Prod.ext hok rfl⟩
  obtain ⟨k, callee, hchain, horder, hpreserves⟩ := bracket_constructor (by decide) hb .idle
  obtain rfl : 1 = k := Option.some.inj
    ((by decide : guardedConstructor.code.findIdx? (fun i ↦ i.op.constructs ⟨"App", "Base"⟩) =
      some 1).symm.trans hchain.1)
  obtain rfl : .constructor ⟨"App", "Base"⟩ [] = callee := Op.call.inj (Option.some.inj hchain.2)
  have he : guardedConstructor.invoke (.on ⟨"App", "Tracer"⟩) .idle ⟨[.object 0], 6⟩ .empty () =
      ⟨.ok ⟨.returned none, ⟨[⟨0, ⟨0⟩, 0⟩, ⟨1, ⟨1⟩, 1⟩, ⟨2, ⟨2⟩, 0⟩, ⟨3, ⟨3⟩, 0⟩, ⟨4, ⟨4⟩, 0⟩,
        ⟨5, ⟨5⟩, 0⟩], [.call "App.Base::.ctor", .call "App.Log::Write"]⟩⟩, .empty, ()⟩ := by rfl
  obtain ⟨e', hinv, hout, hspan⟩ := hpreserves ⟨by decide, by decide⟩ (by decide) [.object 0] 6
    .empty () _ (congrArg Result.answer he) (by decide)
  rw [he] at hinv
  refine ⟨b', e', hb, hinv, hout, ?_, fun front n back hevents ↦ ?_⟩
  · cases hspan with
    | passed hbeats hpass _ hnew =>
      obtain ⟨hfront, hback⟩ := hpass.eq_filter
      rw [← hbeats] at hfront hback
      rw [hnew, hfront, hback]
      decide +kernel
    | stayed hbeats _ => exact absurd hbeats (by decide +kernel)
  · exact (horder _ _ _ _ (congrArg Result.answer hinv) front n back hevents).2

end CilSpan
