import CilSpan.Proofs.Machine.Beats

namespace CilSpan

variable {σ : Type} {P Q : Nat → Prop}

/-- What waits in the entry leads to where `P` holds. An exception in it was raised where `Q` does. -/
def Pending.LeadsInto (Q P : Nat → Prop) : Pending → Prop
  | .leave target handlers => P target ∧ ∀ h ∈ handlers, P h
  | .unwind _ origin _ => Q origin

structure State.Within (P : Nat → Prop) (s : State σ) : Prop where
  position : P s.position
  pending : ∀ x ∈ s.pending, x.LeadsInto P P

namespace Program

/-- A jump from where `Q` holds lands where `P` does. -/
structure Lands (p : Program σ) (Q P : Nat → Prop) : Prop where
  target : ∀ n i l m, Q n → p.body.code[n]? = some i → i.op.target? = some l →
    p.body.position? l = some m → P m
  handler : ∀ z ∈ p.zones, P z.handler.start

structure Confines (p : Program σ) (P : Nat → Prop) : Prop extends p.Lands P P where
  next : ∀ n, P n → P (n + 1)

variable {p : Program σ} {i : Instr} {s t : State σ} {n : Nat}

theorem lands_depart {target : Nat} {handlers : List Nat}
    (hs : ∀ x ∈ s.pending, x.LeadsInto Q P) (ht : P target) (hh : ∀ h ∈ handlers, P h)
    (hgo : s.depart target handlers = .jumped t) :
    P t.position ∧ ∀ x ∈ t.pending, x.LeadsInto Q P := by
  cases handlers with
  | nil =>
    injection hgo with hgo
    exact hgo ▸ ⟨ht, hs⟩
  | cons h handlers =>
    injection hgo with hgo
    obtain ⟨hh, hrest⟩ := List.forall_mem_cons.1 hh
    exact hgo ▸ ⟨hh, List.forall_mem_cons.2 ⟨⟨ht, hrest⟩, hs⟩⟩

namespace Lands

variable (h : p.Lands Q P)
include h

theorem raise {exception : Value} {origin first : Nat} (ho : Q origin)
    (hs : ∀ x ∈ s.pending, x.LeadsInto Q P) (hgo : p.raise exception origin first s = .jumped t) :
    P t.position ∧ ∀ x ∈ t.pending, x.LeadsInto Q P := by
  unfold Program.raise at hgo
  split at hgo
  · cases hgo
  · rename_i z number hz
    have hstart := h.handler z (List.mem_of_getElem? (guardian?_some hz).1)
    split at hgo
    · injection hgo with hgo
      exact hgo ▸ ⟨hstart, List.forall_mem_cons.2 ⟨ho, hs⟩⟩
    · injection hgo with hgo
      exact hgo ▸ ⟨hstart, hs⟩

theorem handlersBetween {source target : Nat} :
    ∀ k ∈ CilSpan.handlersBetween p.zones source target, P k := by
  intro k hk
  obtain ⟨z, hz, -, -, -, rfl⟩ := mem_handlersBetween.1 hk
  exact h.handler z hz

theorem of_jumped (hn : Q s.position) (hs : ∀ x ∈ s.pending, x.LeadsInto Q P)
    (hgo : p.step s = .jumped t) : P t.position ∧ ∀ x ∈ t.pending, x.LeadsInto Q P := by
  obtain ⟨i, hi⟩ := exists_of_step_goes (.inr hgo)
  rw [step_eq_exec hi] at hgo
  have heff := effect_exec p i { s with path := ⟨s.position, i.label, s.stack⟩ :: s.path }
  generalize p.exec i _ = turn at heff hgo
  cases heff with
  | next => cases hgo
  | branch hf hop _ ht hpos =>
    injection hgo with hgo
    have htarget := h.target _ i _ _ hn hi (by rw [hop]; rfl) ht
    exact hgo ▸ ⟨hpos ▸ htarget, hf.pending ▸ hs⟩
  | leave hf hop ht =>
    have htarget := h.target _ i _ _ hn hi (by rw [hop]; rfl) ht
    exact lands_depart (hf.pending ▸ hs) htarget h.handlersBetween hgo
  | resume _ hp =>
    obtain ⟨⟨ht, hh⟩, hrest⟩ := List.forall_mem_cons.1 (hp ▸ hs)
    exact lands_depart hrest ht hh hgo
  | unwind _ hp =>
    obtain ⟨ho, hrest⟩ := List.forall_mem_cons.1 (hp ▸ hs)
    exact h.raise ho hrest hgo
  | raise hf => exact h.raise hn (hf.pending ▸ hs) hgo
  | returned => cases hgo
  | broken => cases hgo

end Lands

namespace Confines

variable (h : p.Confines P)
include h

theorem within_of_goes (hs : s.Within P) (hgo : (p.step s).Goes t) : t.Within P := by
  obtain ⟨i, hi⟩ := exists_of_step_goes hgo
  obtain hgo | hgo := hgo
  · obtain ⟨hposition, hpending⟩ := frame_of_next hi hgo
    exact ⟨hposition ▸ h.next _ hs.position, hpending ▸ hs.pending⟩
  · obtain ⟨hposition, hpending⟩ := h.toLands.of_jumped hs.position hs.pending hgo
    exact ⟨hposition, hpending⟩

theorem of_mem_beats {left : Nat} {fell : Bool} (hs : s.Within P) :
    ∀ v ∈ p.beats left fell s, P v.moment.position := by
  induction left generalizing fell s with
  | zero => exact nofun
  | succ left ih =>
    cases hi : p.body.code[s.position]? with
    | none =>
      rw [beats_none hi]
      exact nofun
    | some i =>
      obtain ⟨rest, hbeats, hrest⟩ := beats_succ hi left fell
      rw [hbeats]
      refine List.forall_mem_cons.2 ⟨hs.position, ?_⟩
      obtain rfl | ⟨fell', t, hgo, -, rfl⟩ := hrest
      · exact nofun
      · exact ih (h.within_of_goes hs hgo)

end Confines

section

variable (hz : ∀ z ∈ p.zones, z.guarded.covers n = false)
include hz

theorem raise_unguarded (exception : Value) (first : Nat) (s : State σ) :
    p.raise exception n first s = .ended (.threw exception) s := by
  unfold raise
  split
  · rfl
  · rename_i z number hg
    obtain ⟨hm, -, hcov⟩ := guardian?_some hg
    rw [hz z (List.mem_of_getElem? hm)] at hcov
    cases hcov

/-- Unguarded code in which nothing waits only falls through and branches. -/
theorem goes_unguarded (hn : s.position = n) (hi : p.body.code[n]? = some i)
    (hpend : s.pending = []) (hgo : (p.step s).Goes t) : t.pending = [] ∧
      (p.step s = .next t ∧ t.position = n + 1 ∨ p.step s = .jumped t ∧
        ∃ l, i.op.target? = some l ∧ p.body.position? l = some t.position) := by
  subst hn
  obtain hnext | hjump := hgo
  · obtain ⟨hposition, hpending⟩ := frame_of_next hi hnext
    exact ⟨hpending.trans hpend, .inl ⟨hnext, hposition⟩⟩
  have hjumped := hjump
  rw [step_eq_exec hi] at hjump
  have heff := effect_exec p i { s with path := ⟨s.position, i.label, s.stack⟩ :: s.path }
  generalize p.exec i _ = turn at heff hjump
  cases heff with
  | branch hf hop _ ht hpos =>
    injection hjump with hjump
    subst hjump
    exact ⟨hf.pending.trans hpend, .inr ⟨hjumped, _, by rw [hop]; rfl, hpos ▸ ht⟩⟩
  | leave hf hop ht =>
    dsimp only at hjump
    rw [handlersBetween_eq_nil fun z hm _ ↦ hz z hm] at hjump
    injection hjump with hjump
    subst hjump
    exact ⟨hf.pending.trans hpend, .inr ⟨hjumped, _, by rw [hop]; rfl, ht⟩⟩
  | resume _ hp | unwind _ hp => exact absurd (hpend.symm.trans hp) nofun
  | raise =>
    rw [raise_unguarded hz] at hjump
    cases hjump
  | _ => cases hjump

end

end Program

end CilSpan
