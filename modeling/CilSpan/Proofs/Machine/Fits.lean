import CilSpan.Proofs.Machine.Runs

namespace CilSpan

variable {σ : Type}

def Pending.Fits (size zones : Nat) : Pending → Prop
  | .leave target handlers => target < size ∧ ∀ h ∈ handlers, h < size
  | .unwind _ origin nextZone => origin < size ∧ nextZone ≤ zones

structure State.Fits (p : Program σ) (s : State σ) : Prop where
  slots : s.slots.length = p.body.locals.length
  pending : ∀ x ∈ s.pending, x.Fits p.body.size p.zones.length

structure Program.Loaded (p : Program σ) : Prop where
  sound : p.body.Sound
  zones : List.Forall₂ (Zone.Of p.body) p.body.regions p.zones

theorem exists_of_mem_forall₂ {α β : Type} {R : α → β → Prop} {xs : List α} {ys : List β}
    (h : List.Forall₂ R xs ys) {y : β} (hy : y ∈ ys) : ∃ x ∈ xs, R x y := by
  induction h with
  | nil => simp at hy
  | cons hr _ ih =>
    obtain rfl | hy := List.mem_cons.1 hy
    · exact ⟨_, by simp, hr⟩
    · obtain ⟨x, hx, h⟩ := ih hy
      exact ⟨x, by simp [hx], h⟩

theorem Zone.Of.handler_lt {b : Body} {r : Region} {z : Zone} (h : Zone.Of b r z) :
    z.handler.start < b.size := Body.position?_lt h.handlerStart

theorem guardian?_some {zones : List Zone} {position first : Nat} {z : Zone} {number : Nat}
    (h : guardian? zones position first = some (z, number)) :
    zones[number]? = some z ∧ first ≤ number ∧ z.guarded.covers position := by
  have hm := List.mem_of_find?_eq_some h
  obtain ⟨k, hk⟩ := List.getElem?_of_mem hm
  rw [List.getElem?_drop, List.getElem?_zipIdx] at hk
  obtain ⟨y, hy, he⟩ := Option.map_eq_some_iff.1 hk
  obtain ⟨rfl, hn⟩ := Prod.mk.inj he
  obtain rfl : first + k = number := by omega
  exact ⟨hy, by omega, by simpa using List.find?_some h⟩

theorem mem_handlersBetween {zones : List Zone} {source target h : Nat} :
    h ∈ handlersBetween zones source target ↔ ∃ z ∈ zones, z.cleanup = true ∧
      z.guarded.covers source = true ∧ z.guarded.covers target = false ∧
        z.handler.start = h := by
  simp [handlersBetween, and_assoc]

theorem handlersBetween_eq_nil {zones : List Zone} {source target : Nat}
    (h : ∀ z ∈ zones, z.cleanup = true → z.guarded.covers source = false) :
    handlersBetween zones source target = [] := by
  apply List.eq_nil_iff_forall_not_mem.2
  intro m hm
  obtain ⟨z, hz, hcl, hcov, -⟩ := mem_handlersBetween.1 hm
  rw [h z hz hcl] at hcov
  cases hcov

namespace Program

variable {p : Program σ} {i : Instr} {s s' : State σ}

theorem Loaded.handler_lt (hp : p.Loaded) : ∀ z ∈ p.zones, z.handler.start < p.body.size := by
  intro z hz
  obtain ⟨r, -, h⟩ := exists_of_mem_forall₂ hp.zones hz
  exact h.handler_lt

theorem Loaded.handlersBetween_lt (hp : p.Loaded) {source target : Nat} :
    ∀ h ∈ handlersBetween p.zones source target, h < p.body.size := by
  intro h hh
  obtain ⟨z, hz, -, -, -, rfl⟩ := mem_handlersBetween.1 hh
  exact hp.handler_lt z hz

theorem Loaded.exists_position (hp : p.Loaded) (hi : i ∈ p.body.code) {l : Label}
    (hl : i.op.target? = some l) : ∃ n, p.body.position? l = some n :=
  Body.mem_labels_iff.1 (hp.sound.target i hi l hl)

theorem Follows.fits {op : Op} (h : p.Follows op s s') (hs : s.Fits p) : s'.Fits p :=
  ⟨h.slots.trans hs.slots, h.pending ▸ hs.pending⟩

theorem fits_tail {x : Pending} {rest : List Pending} (hs : s.Fits p) (hx : s.pending = x :: rest) :
    x.Fits p.body.size p.zones.length ∧ State.Fits p { s with pending := rest } :=
  ⟨hs.pending x (hx ▸ List.mem_cons_self), hs.slots, fun y hy ↦
    hs.pending y (hx ▸ List.mem_cons_of_mem x hy)⟩

theorem fits_cons {x : Pending} {position : Nat} {stack : List Value} (hs : s.Fits p)
    (hx : x.Fits p.body.size p.zones.length) :
    State.Fits p { s with position, stack, pending := x :: s.pending } := by
  refine ⟨hs.slots, fun y hy ↦ ?_⟩
  obtain rfl | hy := List.mem_cons.1 hy
  · exact hx
  · exact hs.pending y hy

theorem fits_depart {target : Nat} {handlers : List Nat} (hs : s.Fits p)
    (ht : target < p.body.size) (hh : ∀ h ∈ handlers, h < p.body.size)
    (hg : (s.depart target handlers).Goes s') : s'.Fits p ∧ s'.position < p.body.size := by
  cases handlers with
  | nil =>
    obtain rfl := Turn.goes_jumped.1 hg
    exact ⟨⟨hs.slots, hs.pending⟩, ht⟩
  | cons h handlers =>
    obtain rfl := Turn.goes_jumped.1 hg
    exact ⟨fits_cons hs ⟨ht, fun h' h'' ↦ hh h' (by simp [h''])⟩, hh h (by simp)⟩

theorem fits_raise (hp : p.Loaded) {exception : Value} {origin first : Nat} (hs : s.Fits p)
    (ho : origin < p.body.size) (hg : (p.raise exception origin first s).Goes s') :
    s'.Fits p ∧ s'.position < p.body.size := by
  unfold raise at hg
  split at hg
  · exact absurd hg Turn.not_goes_ended
  · rename_i z number hz
    obtain ⟨hz, -⟩ := guardian?_some hz
    have hlt : number < p.zones.length := (List.getElem?_eq_some_iff.1 hz).1
    have hh := hp.handler_lt z (List.mem_of_getElem? hz)
    split at hg <;> obtain rfl := Turn.goes_jumped.1 hg
    · exact ⟨fits_cons hs ⟨ho, hlt⟩, hh⟩
    · exact ⟨⟨hs.slots, hs.pending⟩, hh⟩

/-- An instruction keeps the invariant, and what jumps stays in the body. -/
theorem Effect.fits {t : Turn σ} (h : p.Effect i s t) (hp : p.Loaded) (hs : s.Fits p)
    (hn : s.position < p.body.size) (hg : t.Goes s') :
    s'.Fits p ∧ (t = .jumped s' → s'.position < p.body.size) := by
  cases h with
  | next h hf hn =>
    obtain rfl := Turn.goes_next.1 hg
    exact ⟨h.fits hs, nofun⟩
  | branch h hop hj ht hn =>
    obtain rfl := Turn.goes_jumped.1 hg
    exact ⟨h.fits hs, fun _ ↦ hn ▸ Body.position?_lt ht⟩
  | leave h hop ht =>
    obtain ⟨hf, hlt⟩ :=
      fits_depart (h.fits hs) (Body.position?_lt ht) hp.handlersBetween_lt hg
    exact ⟨hf, fun _ ↦ hlt⟩
  | resume hop hpend =>
    obtain ⟨hx, hr⟩ := fits_tail hs hpend
    obtain ⟨hf, hlt⟩ := fits_depart hr hx.1 hx.2 hg
    exact ⟨hf, fun _ ↦ hlt⟩
  | unwind hop hpend =>
    obtain ⟨hx, hr⟩ := fits_tail hs hpend
    obtain ⟨hf, hlt⟩ := fits_raise hp hr hx.1 hg
    exact ⟨hf, fun _ ↦ hlt⟩
  | raise h =>
    obtain ⟨hf, hlt⟩ := fits_raise hp (h.fits hs) hn hg
    exact ⟨hf, fun _ ↦ hlt⟩
  | returned => exact absurd hg Turn.not_goes_ended
  | broken => exact absurd hg Turn.not_goes_broken

theorem step_eq_exec (h : p.body.code[s.position]? = some i) :
    p.step s = p.exec i { s with path := ⟨s.position, i.label, s.stack⟩ :: s.path } := by
  simp only [step, h]

theorem step_eq {t : Turn σ} (h : p.body.code[s.position]? = some i)
    (he : p.exec i { s with path := ⟨s.position, i.label, s.stack⟩ :: s.path } = t) :
    p.step s = t :=
  (step_eq_exec h).trans he

theorem exists_of_step_ended {outcome : Outcome} (h : p.step s = .ended outcome s') :
    ∃ i, p.body.code[s.position]? = some i := by
  cases hi : p.body.code[s.position]? with
  | none =>
    simp only [step, hi] at h
    cases h
  | some i => exact ⟨i, rfl⟩

theorem exists_of_step_goes (h : (p.step s).Goes s') :
    ∃ i, p.body.code[s.position]? = some i := by
  cases hi : p.body.code[s.position]? with
  | none =>
    simp only [step, hi] at h
    exact absurd h Turn.not_goes_broken
  | some i => exact ⟨i, rfl⟩

/-- Going on with the instruction behind leaves what is pending alone. -/
theorem frame_of_next (hi : p.body.code[s.position]? = some i) (h : p.step s = .next s') :
    s'.position = s.position + 1 ∧ s'.pending = s.pending := by
  rw [step_eq_exec hi] at h
  obtain ⟨hf, hn⟩ := shows_exec h
  exact ⟨hn, hf.pending⟩

theorem step_ret (hi : p.body.code[s.position]? = some i) (hop : i.op = .ret) :
    p.step s = .ended (.returned s.stack.head?) { s with
      stack := s.stack.tail, path := ⟨s.position, i.label, s.stack⟩ :: s.path } := by
  rw [step_eq_exec hi]
  simp only [exec, hop]

theorem op_ne_ret_of_goes (hi : p.body.code[s.position]? = some i) (hgo : (p.step s).Goes s') :
    i.op ≠ .ret := by
  intro hop
  rw [step_ret hi hop] at hgo
  exact Turn.not_goes_ended hgo

theorem exec_leave {width : Width} {target l : Label} {n : Nat}
    (ht : p.body.position? target = some n) :
    p.exec ⟨l, .branch .leave width target⟩ s =
      { s with stack := [] }.depart n (handlersBetween p.zones s.position n) := by
  simp only [exec, branch, ht]

theorem raise_beyond {first : Nat} (hk : p.zones.length ≤ first) (exception : Value)
    (origin : Nat) (s : State σ) : p.raise exception origin first s = .ended (.threw exception) s := by
  have hd : p.zones.zipIdx.drop first = [] := List.drop_eq_nil_of_le (by simpa using hk)
  simp only [raise, guardian?, hd, List.find?_nil]

theorem fits_of_goes (hp : p.Loaded) (hs : s.Fits p) (hg : (p.step s).Goes s') : s'.Fits p := by
  obtain ⟨i, hi⟩ := exists_of_step_goes hg
  rw [step_eq_exec hi] at hg
  have hs' : State.Fits p { s with path := ⟨s.position, i.label, s.stack⟩ :: s.path } :=
    ⟨hs.slots, hs.pending⟩
  exact ((effect_exec p i _).fits hp hs' (List.getElem?_eq_some_iff.1 hi).1 hg).1

theorem fits_start (b : Body) (zones : List Zone) (hooks : Hooks) (args : List Value)
    (host : Host σ) (heap : Heap) (world : σ) :
    (State.start b heap world).Fits (⟨b, zones, hooks, args, host⟩ : Program σ) :=
  ⟨by simp [State.start], by simp [State.start]⟩

end Program

end CilSpan
