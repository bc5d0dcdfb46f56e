import CilSpan.Proofs.Machine.Handlers

namespace CilSpan

variable {σ : Type}

def Fault.isLost : Fault → Bool
  | .lostTarget _ | .lostSlot _ => true
  | _ => false

/-- In this state a step finds what it looks for: the target of the branch it stands at, the slot of
the local, and the positions and regions in what is pending. -/
structure State.InBounds (b : Body) (s : State σ) : Prop where
  target : ∀ i, b.code[s.position]? = some i → ∀ l, i.op.target? = some l →
    ∃ n, b.position? l = some n
  slot : ∀ i, b.code[s.position]? = some i → ∀ k, i.op.slot? = some k → k.toNat < s.slots.length
  pending : ∀ x ∈ s.pending, x.Fits b.size b.regions.length

namespace Program

variable {p : Program σ} {i : Instr} {s t : State σ} {n : Nat}

theorem isLost_of_broken {fault : Fault} (h : s.InBounds p.body) (hb : p.step s = .broken fault t) :
    fault.isLost = false := by
  unfold step at hb
  split at hb
  · injection hb with hb
    exact hb ▸ rfl
  · rename_i i hi
    have hl := (shows_exec hb).2
    cases fault with
    | lostTarget l =>
      obtain ⟨hop, hnone⟩ := hl
      obtain ⟨n, hn⟩ := h.target i hi l hop
      cases hn.symm.trans hnone
    | lostSlot k =>
      obtain ⟨hop, hle⟩ := hl
      exact absurd (h.slot i hi k hop) (Nat.not_lt_of_le hle)
    | _ => rfl

theorem Loaded.inBounds (hp : p.Loaded) (hs : s.Fits p) : s.InBounds p.body where
  target _ hi _ hl := hp.exists_position (List.mem_of_getElem? hi) hl
  slot i hi k hk := hs.slots ▸ hp.sound.slot i (List.mem_of_getElem? hi) k hk
  pending := hp.zones.length_eq ▸ hs.pending

theorem Steps.fits (h : p.Steps n s t) (hp : p.Loaded) (hs : s.Fits p) : t.Fits p := by
  induction h with
  | zero => exact hs
  | cons hgo _ ih => exact ih (fits_of_goes hp hs hgo)

/-- A run that breaks does so in a state that it has come to. -/
theorem Ends.exists_broken {fault : Fault} (h : p.Ends n s (.error fault) t) :
    ∃ m u, p.Steps m s u ∧ p.step u = .broken fault t := by
  generalize hr : (.error fault : Except Fault Outcome) = r at h
  induction h with
  | ended => cases hr
  | broken hs =>
    injection hr with hr
    exact ⟨0, _, .zero _, hr ▸ hs⟩
  | cons hgo _ ih =>
    obtain ⟨m, u, hu, hb⟩ := ih hr
    exact ⟨m + 1, u, .cons hgo hu, hb⟩

end Program

/-- While a body without flaws runs, whatever is looked for is found, in every state that the run
comes to. So an invocation ends with an outcome or breaks for another reason. -/
theorem run_in_bounds {b : Body} (hb : b.flaw? = none) (hooks : Hooks) (args : List Value)
    (host : Host σ) :
    (∀ r ∈ b.regions, ∀ l ∈ r.boundaries, ∃ n, b.position? l = some n) ∧
      ∃ p, Program.ofBody b hooks args host = .ok p ∧ ∀ heap world,
        (∀ n s, p.Steps n (.start b heap world) s → s.InBounds b ∧
          ∀ fault t, p.step s = .broken fault t → fault.isLost = false) ∧
        ∀ budget, let answer := (b.invoke hooks host ⟨args, budget⟩ heap world).answer
          (∃ e, answer = .ok e) ∨
            ∃ fault, answer = .error (.broken fault) ∧ fault.isLost = false := by
  have hsound := Body.flaw?_eq_none.1 hb
  obtain ⟨zs, hzs⟩ := hsound.exists_zones
  let p : Program σ := ⟨b, zs, hooks, args, host⟩
  have hloaded : p.Loaded := ⟨hsound, hzs⟩
  have hbounds (heap world n) (s : State σ) (hs : p.Steps n (.start b heap world) s) :
      s.InBounds b ∧ ∀ fault t, p.step s = .broken fault t → fault.isLost = false := by
    have hstart := Program.fits_start b zs hooks args host heap world
    have hin := hloaded.inBounds (hs.fits hloaded hstart)
    exact ⟨hin, fun fault t ht ↦ Program.isLost_of_broken hin ht⟩
  refine ⟨fun r hr l hl ↦ ?_, p, Body.ofBody_eq_ok hzs hooks args host, fun heap world ↦
    ⟨hbounds heap world, fun budget ↦ ?_⟩⟩
  · exact Body.mem_labels_iff.1 ((Body.ascending_iff.1 (hsound.region r hr)).1 l hl)
  · rw [Body.invoke_eq_run hsound hzs]
    obtain ⟨t, -, hrun⟩ | ⟨n, r, t, hn, hends⟩ := p.steps_or_ends budget (.start b heap world)
    · exact .inr ⟨.budgetExhausted budget, by rw [hrun budget]; rfl, rfl⟩
    · rw [hends.run_eq budget hn]
      cases r with
      | ok outcome => exact .inl ⟨_, rfl⟩
      | error fault =>
        obtain ⟨m, u, hu, hbroken⟩ := hends.exists_broken
        exact .inr ⟨fault, rfl, (hbounds heap world m u hu).2 fault t hbroken⟩

/-- In the handler of a handler, what both were entered from is still pending. -/
theorem run_in_bounds_nested : nestedCleanups.flaw? = none ∧
    (nestedState 3 [.leave 4 [], .leave 6 [5]] [2, 1, 0]).InBounds nestedCleanups ∧
    ∃ e, (nestedCleanups.invoke (.on ⟨"App", "Tracer"⟩) .idle ⟨[], 9⟩ .empty ()).answer =
      .ok e := by
  have hsound : nestedCleanups.flaw? = none := by decide +kernel
  obtain ⟨-, p, hp, hall⟩ := run_in_bounds hsound (.on ⟨"App", "Tracer"⟩) [] Host.idle
  obtain rfl : nestedProgram = p := Except.ok.inj hp
  obtain ⟨hbounds, hanswer⟩ := hall .empty ()
  have hsteps : nestedProgram.Steps 3 (.start nestedCleanups .empty ())
      (nestedState 3 [.leave 4 [], .leave 6 [5]] [2, 1, 0]) :=
    .cons (.inr rfl) (.cons (.inr rfl) (.next rfl))
  have hok : (nestedCleanups.invoke (.on ⟨"App", "Tracer"⟩) .idle ⟨[], 9⟩ .empty ()).answer.isOk =
      true := by
    decide +kernel
  refine ⟨hsound, (hbounds 3 _ hsteps).1, (hanswer 9).resolve_right ?_⟩
  rintro ⟨fault, hfault, -⟩
  rw [hfault] at hok
  cases hok

end CilSpan
