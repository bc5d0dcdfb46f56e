import CilSpan.Proofs.Span.Around

namespace CilSpan

theorem Op.fallsThrough_lengthen (op : Op) : op.lengthen.fallsThrough = op.fallsThrough := by
  cases op with
  | branch jump => cases jump <;> rfl
  | _ => rfl

def Body.Closed (b : Body) : Prop := ∀ i ∈ b.code.getLast?, i.op.fallsThrough = false

theorem Body.Closed.lengthen {b : Body} (h : b.Closed) : b.lengthen.Closed := by
  intro i hi
  rw [Body.lengthen, List.getLast?_map] at hi
  obtain ⟨j, hj, rfl⟩ := Option.map_eq_some_iff.1 hi
  rw [Op.fallsThrough_lengthen]
  exact h j hj

theorem Body.Closed.succ_lt {b : Body} (h : b.Closed) {n : Nat} {i : Instr}
    (hi : b.code[n]? = some i) (hf : i.op.fallsThrough = true) : n + 1 < b.size := by
  have hlt : n < b.size := (List.getElem?_eq_some_iff.1 hi).1
  rcases Nat.lt_or_eq_of_le (Nat.succ_le_of_lt hlt) with hn | hn
  · exact hn
  · have hlast : b.code.getLast? = some i := by
      rw [List.getLast?_eq_getElem?, ← hi]
      congr 1
      simp only [Body.size] at hn
      omega
    rw [h i hlast] at hf
    cases hf

def Frame.Inside (x : Frame) (size k : Nat) : Prop := x.spot 0 ≤ k ∧ k < x.spot size

namespace Framed

/-- What an instruction in the place of the old code cannot do. -/
structure Enclosed (c : Body) (hooks : Hooks) (x : Frame) (size k : Nat) (i : Instr) : Prop where
  ret : i.op ≠ .ret
  hook : ∀ callee, i.op.callee? = some callee → hooks.hook? callee = none
  succ : i.op.fallsThrough = true → x.Inside size (k + 1)
  target : ∀ jump width l t, i.op = .branch jump width l → c.position? l = some t →
    x.Inside size t ∨ jump = .leave ∧ t = x.spot (size + 3)

theorem exists_of_lt_spot {x : Frame} {size k : Nat} (h : x.Inside size k) :
    ∃ n, n < size ∧ x.spot n ≤ k ∧ k < x.spot (n + 1) := by
  obtain ⟨h₀, h₁⟩ := h
  induction size with
  | zero => omega
  | succ size ih =>
    rcases Nat.lt_or_ge k (x.spot size) with hk | hk
    · obtain ⟨n, hn, hle, hlt⟩ := ih hk
      exact ⟨n, by omega, hle, hlt⟩
    · exact ⟨size, Nat.lt_succ_self size, hk, h₁⟩

theorem inside_spot (x : Frame) {size n : Nat} (hn : n < size) : x.Inside size (x.spot n) :=
  ⟨(strictMono_spot x).monotone (Nat.zero_le n), strictMono_spot x hn⟩

variable {σ : Type} {p : Program σ} {c : Body} {result tracer : TypeName} {name : String}
  {x : Frame} {n k : Nat} {i : Instr} {s s' t : State σ}

section

variable (h : Framed p.body c 0 result name p.hooks x) (hp : p.Loaded) (hc : c.Sound)
  (hclosed : p.body.Closed) (hfree : p.body.hooked? p.hooks = none)
include h hp hc hclosed hfree

theorem enclosed_same (hi : p.body.code[n]? = some i) (hop : i.op ≠ .ret) :
    Enclosed c p.hooks x p.body.size (x.spot n) i where
  ret := hop
  hook callee hcallee := hook?_eq_none_of_hooked? hfree (List.mem_of_getElem? hi) hcallee
  succ hf := by
    have hspot := h.spot_succ (Nat.succ_ne_zero n) hi
    rw [if_neg hop] at hspot
    rw [← hspot]
    exact inside_spot x (hclosed.succ_lt hi hf)
  target jump width l t hbr ht := by
    obtain ⟨m, hm⟩ := hp.exists_position (List.mem_of_getElem? hi) (by rw [hbr]; rfl)
    have hm' := h.spliced.position? h.code hc.nodup hm
    obtain rfl : place x.pieces m = t := Option.some_inj.1 (hm'.symm.trans ht)
    exact .inl (inside_spot x (Body.position?_lt hm))

omit hp hc hclosed hfree in
theorem enclosed_store (hi : p.body.code[n]? = some i) (hop : i.op = .ret)
    (hv : result.isVoid = false) :
    Enclosed c p.hooks x p.body.size (x.spot n) ⟨i.label, .stloc x.slot⟩ where
  ret := nofun
  hook _ := nofun
  succ _ := by
    have hlt : n < p.body.size := (List.getElem?_eq_some_iff.1 hi).1
    have hspot : x.spot (n + 1) = x.spot n + 1 + 1 := by
      rw [h.spot_succ (Nat.succ_ne_zero n) hi, if_pos hop, returnRest, hv]
      rfl
    have hle : x.spot (n + 1) ≤ x.spot p.body.size := (strictMono_spot x).monotone hlt
    have h₀ := (inside_spot x hlt).1
    exact ⟨by omega, by omega⟩
  target := nofun

omit hp hclosed hfree in
theorem enclosed_leave (k : Nat) (l : Label) :
    Enclosed c p.hooks x p.body.size k ⟨l, .branch .leave .long x.funnel⟩ where
  ret := nofun
  hook _ := nofun
  succ := nofun
  target jump width l t hbr ht := by
    injection hbr with hj _ hl
    subst hj hl
    exact .inr ⟨rfl, Option.some_inj.1 (ht.symm.trans (h.position?_funnel hc.nodup))⟩

theorem exists_enclosed (hk : x.Inside p.body.size k) :
    ∃ i, c.code[k]? = some i ∧ Enclosed c p.hooks x p.body.size k i := by
  obtain ⟨n, hn, hle, hlt⟩ := exists_of_lt_spot hk
  obtain ⟨i, hi⟩ : ∃ i, p.body.code[n]? = some i := ⟨_, List.getElem?_eq_getElem hn⟩
  have hspot := h.spot_succ (Nat.succ_ne_zero n) hi
  by_cases hop : i.op = .ret
  · have hret := h.getElem?_return hi hop
    rw [if_pos hop] at hspot
    cases hv : result.isVoid with
    | true =>
      simp only [returnOp, returnRest, hv, if_true, List.length_nil] at hret hspot
      obtain rfl : k = x.spot n := by omega
      exact ⟨_, hret, h.enclosed_leave hc _ _⟩
    | false =>
      simp only [returnOp, returnRest, hv, Bool.false_eq_true, if_false,
        List.length_singleton] at hret hspot
      rcases Nat.eq_or_lt_of_le hle with rfl | hgt
      · exact ⟨_, hret, h.enclosed_store hi hop hv⟩
      · obtain rfl : k = x.spot n + 1 := by omega
        obtain ⟨l, hl⟩ := h.exists_rest hi hop hv
        exact ⟨_, hl, h.enclosed_leave hc _ _⟩
  · rw [if_neg hop] at hspot
    obtain rfl : k = x.spot n := by omega
    exact ⟨i, h.getElem?_spot hi hop, h.enclosed_same hp hc hclosed hfree hi hop⟩

end

def Inner (x : Frame) (size zones : Nat) : Pending → Prop
  | .leave target handlers => x.Inside size target ∧ (∀ m ∈ handlers, x.Inside size m) ∨
      target = x.spot (size + 3) ∧
        ∃ before, handlers = before ++ [x.spot size] ∧ ∀ m ∈ before, x.Inside size m
  | .unwind _ origin nextZone => x.Inside size origin ∧ nextZone ≤ zones

def Outer (x : Frame) (size zones : Nat) : Pending → Prop
  | .leave target handlers => target = x.spot (size + 3) ∧ handlers = []
  | .unwind _ _ nextZone => nextZone = zones + 1

def Begun (name : String) (events : List Event) : Prop :=
  ∃ between, events = between ++ [.enter name] ∧ ∀ e ∈ between, e.hook? = none

def Spanned (name : String) (events : List Event) : Prop :=
  ∃ between, events = .exit :: (between ++ [.enter name]) ∧ ∀ e ∈ between, e.hook? = none

/-- Where control can be once the span has begun. -/
inductive Stage (p : Program σ) (x : Frame) (name : String) (s : State σ) : Prop
  | inside (hn : x.Inside p.body.size s.position) (he : Begun name s.events)
      (hp : ∀ y ∈ s.pending, Inner x p.body.size p.zones.length y)
  | marker (hn : s.position = x.spot p.body.size) (he : Begun name s.events)
      (hp : ∃ y rest, s.pending = y :: rest ∧ Outer x p.body.size p.zones.length y)
  | exit (hn : s.position = x.spot p.body.size + 1) (he : Begun name s.events)
      (hp : ∃ y rest, s.pending = y :: rest ∧ Outer x p.body.size p.zones.length y)
  | done (hn : s.position = x.spot p.body.size + 2) (he : Spanned name s.events)
      (hp : ∃ y rest, s.pending = y :: rest ∧ Outer x p.body.size p.zones.length y)
  | funnel (hn : x.spot (p.body.size + 3) ≤ s.position) (he : Spanned name s.events)

def Kept (p : Program σ) (x : Frame) (name : String) : Turn σ → Prop
  | .next s | .jumped s => Stage p x name s
  | .ended _ s => Spanned name s.events
  | .broken _ _ => True

theorem Begun.follows {q : Program σ} {op : Op} (hf : q.Follows op s s')
    (hop : ∀ callee, op.callee? = some callee → q.hooks.hook? callee = none)
    (he : Begun name s.events) : Begun name s'.events := by
  obtain ⟨between, hs, hb⟩ := he
  obtain ⟨new, hs', hnew⟩ := hf.events
  refine ⟨new ++ between, by rw [hs', hs, List.append_assoc], fun e hm ↦ ?_⟩
  rcases List.mem_append.1 hm with hm | hm
  · cases hk : e.hook? with
    | none => rfl
    | some hook =>
      obtain ⟨callee, hcallee, hhook⟩ := hnew e hm hook hk
      rw [hop callee hcallee] at hhook
      cases hhook
  · exact hb e hm

theorem kept_depart {target : Nat} {handlers : List Nat}
    (hx : Inner x p.body.size p.zones.length (.leave target handlers)) (he : Begun name s.events)
    (hp : ∀ y ∈ s.pending, Inner x p.body.size p.zones.length y) :
    Kept p x name (s.depart target handlers) := by
  have hcons {y : Pending} (hy : Inner x p.body.size p.zones.length y) :
      ∀ z ∈ y :: s.pending, Inner x p.body.size p.zones.length z := by
    intro z hz
    rcases List.mem_cons.1 hz with rfl | hz
    · exact hy
    · exact hp z hz
  rcases hx with ⟨ht, hh⟩ | ⟨rfl, before, rfl, hb⟩
  · cases handlers with
    | nil => exact .inside ht he hp
    | cons m handlers =>
      refine .inside (hh m (by simp)) he (hcons (.inl ⟨ht, fun k hk ↦ hh k ?_⟩))
      exact List.mem_cons_of_mem m hk
  · cases before with
    | nil => exact .marker rfl he ⟨_, _, rfl, rfl, rfl⟩
    | cons m before =>
      refine .inside (hb m (by simp)) he (hcons (.inr ⟨rfl, before, rfl, fun k hk ↦ hb k ?_⟩))
      exact List.mem_cons_of_mem m hk

theorem inside_handler (hp : p.Loaded) {z : Zone} (hz : z ∈ p.zones) :
    x.Inside p.body.size (x.spot z.handler.start) := inside_spot x (hp.handler_lt z hz)

theorem inner_between (hp : p.Loaded) {source target : Nat} (hs : x.Inside p.body.size source)
    (ht : x.Inside p.body.size target ∨ target = x.spot (p.body.size + 3)) :
    Inner x p.body.size p.zones.length
      (.leave target (handlersBetween (p.around c x 0).zones source target)) := by
  have hold : ∀ m ∈ handlersBetween (p.zones.map (Zone.move x.spot)) source target,
      x.Inside p.body.size m := by
    intro m hm
    obtain ⟨z, hz, -, -, -, rfl⟩ := mem_handlersBetween.1 hm
    obtain ⟨y, hy, rfl⟩ := List.mem_map.1 hz
    exact inside_handler hp hy
  rw [Program.around, handlersBetween_append]
  rcases ht with ht | rfl
  · rw [handlersBetween_inside x source (decide_eq_true ⟨ht.1, ht.2⟩), List.append_nil]
    exact .inl ⟨ht, hold⟩
  · have hle : x.spot p.body.size ≤ x.spot (p.body.size + 3) :=
      (strictMono_spot x).monotone (Nat.le_add_right _ _)
    rw [handlersBetween_out x (decide_eq_true ⟨hs.1, hs.2⟩) hle]
    exact .inr ⟨rfl, _, rfl, hold⟩

/-- An exception from the old code finds a handler there, or that of the span. -/
theorem kept_raise (hload : p.Loaded) {origin first : Nat} (ho : x.Inside p.body.size origin)
    (hk : first ≤ p.zones.length) (he : Begun name s.events)
    (hp : ∀ y ∈ s.pending, Inner x p.body.size p.zones.length y) (exception : Value) :
    Kept p x name ((p.around c x 0).raise exception origin first s) := by
  have hlast : (p.around c x 0).zones[p.zones.length]? = some (x.zone 0 p.body.size) := by
    simp [Program.around]
  unfold Program.raise
  split
  -- The last zone covers all that stands in the place of the old code, so a handler is found.
  · rename_i hnone
    have hm : (x.zone 0 p.body.size, p.zones.length) ∈ (p.around c x 0).zones.zipIdx.drop first := by
      refine List.mem_of_getElem? (i := p.zones.length - first) ?_
      rw [List.getElem?_drop, Nat.add_sub_cancel' hk, List.getElem?_zipIdx, hlast]
      simp
    have hcov : (x.zone 0 p.body.size).guarded.covers origin = true := decide_eq_true ⟨ho.1, ho.2⟩
    exact absurd hcov (List.find?_eq_none.1 hnone _ hm)
  · rename_i z number hz
    obtain ⟨hz, hle, -⟩ := guardian?_some hz
    have hnum : number < p.zones.length + 1 := by
      simpa [Program.around] using (List.getElem?_eq_some_iff.1 hz).1
    rcases Nat.lt_or_ge number p.zones.length with hlt | hge
    · have hz' : (p.zones.map (Zone.move x.spot))[number]? = some z := by
        rw [← hz, Program.around, List.getElem?_append_left (by simpa using hlt)]
      obtain ⟨y, hy, rfl⟩ := List.mem_map.1 (List.mem_of_getElem? hz')
      have hin := inside_handler (x := x) hload hy
      split
      · refine .inside hin he fun w hw ↦ ?_
        rcases List.mem_cons.1 hw with rfl | hw
        · exact ⟨ho, hlt⟩
        · exact hp w hw
      · exact .inside hin he hp
    · obtain rfl : number = p.zones.length := by omega
      obtain rfl : x.zone 0 p.body.size = z := Option.some_inj.1 (hlast.symm.trans hz)
      have hcleanup : (x.zone 0 p.body.size).cleanup = true := rfl
      rw [if_pos hcleanup]
      exact .marker rfl he ⟨_, _, rfl, rfl⟩

section

variable (h : Framed p.body c 0 result name p.hooks x) (hload : p.Loaded) (hc : c.Sound)
  (hclosed : p.body.Closed) (hfree : p.body.hooked? p.hooks = none)
include h hload hc hclosed hfree

theorem kept_inside (hn : x.Inside p.body.size s.position) (he : Begun name s.events)
    (hp : ∀ y ∈ s.pending, Inner x p.body.size p.zones.length y) :
    Kept p x name ((p.around c x 0).step s) := by
  obtain ⟨i, hi, henc⟩ := h.exists_enclosed hload hc hclosed hfree hn
  rw [Program.step_eq_exec (p := p.around c x 0) hi]
  -- Fetching adds to the path only, which the invariant does not mention.
  generalize hs : ({ s with path := _ } : State σ) = s₁
  have hpos₁ : s₁.position = s.position := by rw [← hs]
  have hn₁ : x.Inside p.body.size s₁.position := hs ▸ hn
  have he₁ : Begun name s₁.events := hs ▸ he
  have hp₁ : ∀ y ∈ s₁.pending, Inner x p.body.size p.zones.length y := hs ▸ hp
  have heff := (p.around c x 0).effect_exec i s₁
  generalize (p.around c x 0).exec i s₁ = turn at heff
  have hfollows {s₂ : State σ} (hf : (p.around c x 0).Follows i.op s₁ s₂) :
      Begun name s₂.events ∧ ∀ y ∈ s₂.pending, Inner x p.body.size p.zones.length y :=
    ⟨he₁.follows hf henc.hook, hf.pending ▸ hp₁⟩
  have hrest {y : Pending} {rest : List Pending} (hy : s₁.pending = y :: rest) :
      Inner x p.body.size p.zones.length y ∧
        ∀ z ∈ rest, Inner x p.body.size p.zones.length z :=
    ⟨hp₁ y (by simp [hy]), fun z hz ↦ hp₁ z (by simp [hy, hz])⟩
  cases heff with
  | next hf hfalls hpos =>
    obtain ⟨he₂, hp₂⟩ := hfollows hf
    have hsucc := henc.succ hfalls
    rw [← hpos₁, ← hpos] at hsucc
    exact .inside hsucc he₂ hp₂
  | branch hf hop hj ht hpos =>
    obtain ⟨he₂, hp₂⟩ := hfollows hf
    rcases henc.target _ _ _ _ hop ht with hin | ⟨hleave, -⟩
    · exact .inside (hpos ▸ hin) he₂ hp₂
    · exact absurd hleave hj
  | leave hf hop ht =>
    obtain ⟨he₂, hp₂⟩ := hfollows hf
    refine kept_depart (inner_between hload hn₁ ?_) he₂ hp₂
    rcases henc.target _ _ _ _ hop ht with hin | ⟨-, hfunnel⟩
    · exact .inl hin
    · exact .inr hfunnel
  | resume hop hpend =>
    obtain ⟨hy, hz⟩ := hrest hpend
    exact kept_depart hy he₁ hz
  | @unwind exception origin nextZone rest hop hpend =>
    obtain ⟨⟨ho, hk⟩, hz⟩ := hrest hpend
    exact kept_raise (s := { s₁ with pending := rest }) hload ho hk he₁ hz exception
  | raise hf =>
    obtain ⟨he₂, hp₂⟩ := hfollows hf
    exact kept_raise hload hn₁ (Nat.zero_le _) he₂ hp₂ _
  | returned hf hop => exact absurd hop henc.ret
  | broken => trivial

omit hload hc hclosed hfree in
theorem kept_done (hn : s.position = x.spot p.body.size + 2) (he : Spanned name s.events)
    (hp : ∃ y rest, s.pending = y :: rest ∧ Outer x p.body.size p.zones.length y) :
    Kept p x name ((p.around c x 0).step s) := by
  obtain ⟨y, rest, hpend, hy⟩ := hp
  have hcode : (p.around c x 0).body.code[s.position]? = some ⟨x.done, .endfinally⟩ :=
    hn ▸ h.getElem?_done
  rw [Program.step_eq_exec hcode]
  cases y with
  | leave target handlers =>
    obtain ⟨rfl, rfl⟩ := hy
    simp only [Program.exec, Program.endfinally, hpend]
    exact .funnel (le_refl _) he
  | unwind exception origin nextZone =>
    obtain rfl : nextZone = p.zones.length + 1 := hy
    have hzones : (p.around c x 0).zones.length ≤ p.zones.length + 1 := by
      simp [Program.around]
    simp only [Program.exec, Program.endfinally, hpend, Program.raise_beyond hzones]
    exact he

omit hload hc hclosed hfree in
theorem kept_funnel (hn : x.spot (p.body.size + 3) ≤ s.position) (he : Spanned name s.events) :
    Kept p x name ((p.around c x 0).step s) := by
  obtain ⟨k, hk⟩ := Nat.exists_eq_add_of_le hn
  have hcode : (p.around c x 0).body.code[s.position]? =
      (funnelCode result x.slot x.funnel x.last)[k]? := hk ▸ h.getElem?_funnel
  cases hi : (funnelCode result x.slot x.funnel x.last)[k]? with
  | none =>
    rw [hi] at hcode
    simp only [Program.step, hcode]
    trivial
  | some i =>
    rw [hi] at hcode
    rw [Program.step_eq_exec hcode]
    have hop : i.op = .ret ∨ i.op = .ldloc x.slot := by
      have hm := List.mem_of_getElem? hi
      unfold funnelCode at hm
      split at hm
      · exact .inl (List.mem_singleton.1 hm ▸ rfl)
      · rcases List.mem_pair.1 hm with rfl | rfl
        · exact .inr rfl
        · exact .inl rfl
    rcases hop with hop | hop
    · simp only [Program.exec, hop]
      exact he
    · simp only [Program.exec, hop]
      split
      · exact .funnel (hn.trans (Nat.le_succ _)) he
      · trivial

theorem kept_step (hooks : p.hooks = .on tracer) (hs : Stage p x name s) :
    Kept p x name ((p.around c x 0).step s) := by
  cases hs with
  | inside hn he hp => exact h.kept_inside hload hc hclosed hfree hn he hp
  | marker hn he hp =>
    rw [h.step_marker hn]
    exact .exit (congrArg (· + 1) hn) he hp
  | exit hn he hp =>
    rw [h.step_exit hooks hn]
    obtain ⟨between, hs, hb⟩ := he
    exact .done (congrArg (· + 1) hn) ⟨between, congrArg _ hs, hb⟩ hp
  | done hn he hp => exact h.kept_done hn he hp
  | funnel hn he => exact h.kept_funnel hn he

theorem spanned_of_ends (hooks : p.hooks = .on tracer) {r : Except Fault Outcome}
    (he : (p.around c x 0).Ends n s r t) {outcome : Outcome} (hr : r = .ok outcome)
    (hs : Stage p x name s) : Spanned name t.events := by
  induction he with
  | broken => cases hr
  | ended hstep =>
    have hk := h.kept_step hload hc hclosed hfree hooks hs
    rw [hstep] at hk
    exact hk
  | cons hgo _ ih =>
    have hk := h.kept_step hload hc hclosed hfree hooks hs
    rcases hgo with hgo | hgo
    · rw [hgo] at hk
      exact ih hr hk
    · rw [hgo] at hk
      exact ih hr hk

end

end Framed

theorem exists_between {σ : Type} {b b' : Body} {tracer result : TypeName} {name : String}
    (hb : b.flaw? = none) (hclosed : b.Closed)
    (h : b.bracket none result name (.on tracer) = (.ok (), b')) (host : Host σ)
    (call : Invocation) (heap : Heap) (world : σ) {e : Execution}
    (he : (b'.invoke (.on tracer) host call heap world).answer = .ok e) :
    ∃ between, e.trace.events = .enter name :: between ++ [.exit] ∧
      ∀ v ∈ between, v.hook? = none := by
  obtain ⟨c, x, hlen, hc, hfree, hx⟩ := bracket_eq_ok h
  have hsound : b.lengthen.Sound := Body.sound_lengthen hb
  obtain ⟨zs, hzs⟩ := hsound.exists_zones
  let p : Program σ := ⟨b.lengthen, zs, .on tracer, call.args, host⟩
  have hp : p.Loaded := ⟨hsound, hzs⟩
  have hx' : Framed p.body c 0 result name p.hooks x := hx
  rw [Body.invoke_eq_of_lengthen_eq hlen] at he
  obtain ⟨n, t, -, hends, -, htrace⟩ :=
    Body.exists_ends_of_invoke_ok hc (hx'.loaded hc hp).zones he
  obtain ⟨path, hsteps⟩ := hx'.steps_enter rfl heap world
  obtain ⟨m, -, hm⟩ := hsteps.ends_after hends
  have hstage : Framed.Stage p x name { State.start c heap world with
      position := x.spot 0, path, events := [.enter name] } :=
    .inside (Framed.inside_spot x hx'.size_pos) ⟨[], rfl, by simp⟩ (by simp [State.start])
  have hfree' : p.body.hooked? p.hooks = none := (Body.hooked?_lengthen b _).trans hfree
  obtain ⟨between, ht, hplain⟩ :=
    hx'.spanned_of_ends hp hc hclosed.lengthen hfree' rfl hm rfl hstage
  refine ⟨between.reverse, ?_, fun v hv ↦ hplain v (List.mem_reverse.1 hv)⟩
  simp only [htrace, State.trace, ht, List.reverse_cons, List.reverse_append, List.reverse_nil,
    List.nil_append, List.cons_append]

/-- Whatever ends a bracketed body, its record has one start of a span, with the name given, as the
first event, and one end as the last. -/
theorem bracket_exactly_once {σ : Type} {b b' : Body} {tracer result : TypeName} {name : String}
    (hb : b.flaw? = none) (hclosed : b.Closed)
    (h : b.bracket none result name (.on tracer) = (.ok (), b')) (host : Host σ)
    (call : Invocation) (heap : Heap) (world : σ) {e : Execution}
    (he : (b'.invoke (.on tracer) host call heap world).answer = .ok e) :
    e.trace.events.head? = some (.enter name) ∧ e.trace.events.getLast? = some .exit ∧
      e.trace.count .enter = 1 ∧ e.trace.count .exit = 1 := by
  obtain ⟨between, hevents, hplain⟩ := exists_between hb hclosed h host call heap world he
  have hcount (hook : Hook) : between.countP (fun v ↦ v.hook? = some hook) = 0 := by
    apply List.countP_eq_zero.2
    intro v hv
    simp [hplain v hv]
  refine ⟨by rw [hevents]; rfl, by rw [hevents, List.getLast?_concat], ?_, ?_⟩
  · rw [Trace.count, hevents, List.countP_append, List.countP_cons, hcount]
    rfl
  · rw [Trace.count, hevents, List.countP_append, List.countP_cons, hcount]
    rfl

def returnInside : Body where
  code := [⟨⟨0⟩, .call (.static ⟨"App", "Log"⟩ "Write" [] .void)⟩, ⟨⟨1⟩, .ret⟩, ⟨⟨2⟩, .nop⟩,
    ⟨⟨3⟩, .endfinally⟩, ⟨⟨4⟩, .ret⟩]
  locals := []
  regions := [⟨.cleanup, ⟨0⟩, ⟨2⟩, ⟨2⟩, ⟨4⟩⟩]
  initLocals := false
  next := 5

theorem bracket_exactly_once_returnInside :
    ∃ b' e, returnInside.bracket none .void "span" (.on ⟨"App", "Tracer"⟩) = (.ok (), b') ∧
      (b'.invoke (.on ⟨"App", "Tracer"⟩) .idle ⟨[], 20⟩ .empty ()).answer = .ok e ∧
      e.trace.events.head? = some (.enter "span") ∧ e.trace.events.getLast? = some .exit ∧
      e.trace.count .enter = 1 ∧ e.trace.count .exit = 1 := by
  have hok : (returnInside.bracket none .void "span" (.on ⟨"App", "Tracer"⟩)).1 = .ok () := by
    decide +kernel
  have hrun : ((returnInside.bracket none .void "span" (.on ⟨"App", "Tracer"⟩)).2.invoke
      (.on ⟨"App", "Tracer"⟩) .idle ⟨[], 20⟩ .empty ()).answer.toBool = true := by
    decide +kernel
  obtain ⟨b', hb⟩ : ∃ b', returnInside.bracket none .void "span" (.on ⟨"App", "Tracer"⟩) =
      (.ok (), b') := ⟨_, Prod.ext hok rfl⟩
  rw [hb] at hrun
  cases he : (b'.invoke (.on ⟨"App", "Tracer"⟩) .idle ⟨[], 20⟩ .empty ()).answer with
  | error => exact nomatch he ▸ hrun
  | ok e =>
    have hclosed : returnInside.Closed := by simp [Body.Closed, returnInside, Op.fallsThrough]
    exact ⟨b', e, hb, he,
      bracket_exactly_once (by decide) hclosed hb .idle ⟨[], 20⟩ .empty () he⟩

end CilSpan
