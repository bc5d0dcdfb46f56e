import CilSpan.Proofs.Span.Edited

namespace CilSpan

namespace Body

variable {b c : Body}

theorem Sound.mem_labels_of_mem_targets (h : b.Sound) {t : Label} (ht : t ∈ b.targets) :
    t ∈ b.labels := by
  obtain ⟨i, hi, hit⟩ := mem_targets_iff.1 ht
  exact h.target i hi t hit

theorem tight_lengthen_shorten (hn : b.labels.Nodup) (ht : ∀ t ∈ b.targets, t ∈ b.labels) :
    Tight b.lengthen.shorten.code :=
  b.long_lengthen.tight_shorten (by rwa [labels_lengthen])
    (by rwa [targets_lengthen, labels_lengthen])

end Body

theorem Accepted.tight {b b' : Body} {n : Nat} (h : Accepted b n b') :
    Tight b'.code ∧ b'.shorten = b' := by
  obtain ⟨⟨c, hc, rfl⟩, hsound⟩ := h
  have hlabels := c.labels_shorten
  refine ⟨hc.long.tight_shorten (hlabels ▸ hsound.nodup) fun t ht ↦ ?_, c.shorten_shorten⟩
  rw [← hlabels]
  exact hsound.mem_labels_of_mem_targets (c.targets_shorten.symm ▸ ht)

/-- Making branches long and then short leaves every short branch in reach of its target and every
long one out of reach, and doing it again changes nothing. This holds of all bodies that an
instrumentation puts out, too. -/
theorem branches_tight :
    (∀ b : Body, b.labels.Nodup → (∀ t ∈ b.targets, t ∈ b.labels) →
      Tight b.lengthen.shorten.code ∧ b.lengthen.shorten.shorten = b.lengthen.shorten) ∧
    (∀ (b b' : Body) base result name hooks, b.bracket base result name hooks = (.ok (), b') →
      Tight b'.code ∧ b'.shorten = b') ∧
    ∀ (b b' : Body) id name hooks pattern exits,
      b.correlate id name hooks pattern = (.ok exits, b') → Tight b'.code ∧ b'.shorten = b' := by
  refine ⟨fun b hn ht ↦ ⟨Body.tight_lengthen_shorten hn ht, b.lengthen.shorten_shorten⟩, ?_, ?_⟩
  · intro b b' base result name hooks h
    exact (accepted_of_bracket h).tight
  · intro b b' id name hooks pattern exits h
    exact (accepted_of_correlate h).tight

def nearAndFar : Body where
  code := ⟨⟨0⟩, .branch .always .long ⟨28⟩⟩ :: ⟨⟨1⟩, .branch .ifTrue .long ⟨2⟩⟩ ::
    (List.range 26).map (fun k ↦ ⟨⟨.ofNat (k + 2)⟩, .ldstr "x"⟩) ++
    [⟨⟨28⟩, .branch .leave .long ⟨29⟩⟩, ⟨⟨29⟩, .ret⟩]
  locals := []
  regions := []
  initLocals := false
  next := 30

theorem branches_tight_nearAndFar :
    let b := nearAndFar
    let hooks := Hooks.on ⟨"App", "Tracer"⟩
    b.labels.Nodup ∧ (∀ t ∈ b.targets, t ∈ b.labels) ∧ Tight b.lengthen.shorten.code ∧
      b.lengthen.shorten.code.filterMap (fun i ↦ i.op.target?.map fun t ↦ (i.op.isShort, t)) =
        [(false, ⟨28⟩), (true, ⟨2⟩), (true, ⟨29⟩)] ∧
      (b.bracket none .void "work" hooks).1 = .ok () ∧
      Tight (b.bracket none .void "work" hooks).2.code ∧
      (b.correlate 3 "work" hooks .standard).1 = .ok ⟨⟨29⟩, [⟨28⟩], []⟩ ∧
      Tight (b.correlate 3 "work" hooks .standard).2.code := by
  intro b hooks
  have hsound : b.Sound := Body.flaw?_eq_none.1 (by decide +kernel)
  have hwidths : b.lengthen.shorten.code.filterMap
      (fun i ↦ i.op.target?.map fun t ↦ (i.op.isShort, t)) =
        [(false, ⟨28⟩), (true, ⟨2⟩), (true, ⟨29⟩)] := by decide +kernel
  have hok : (b.bracket none .void "work" hooks).1 = .ok () := by decide +kernel
  have hexits : (b.correlate 3 "work" hooks .standard).1 = .ok ⟨⟨29⟩, [⟨28⟩], []⟩ := by
    decide +kernel
  obtain ⟨hown, hbracket, hcorrelate⟩ := branches_tight
  have hn := hsound.nodup
  have ht : ∀ t ∈ b.targets, t ∈ b.labels := fun t ↦ hsound.mem_labels_of_mem_targets
  exact ⟨hn, ht, (hown b hn ht).1, hwidths, hok,
    (hbracket b _ none .void "work" hooks (by rw [← hok])).1, hexits,
    (hcorrelate b _ 3 "work" hooks .standard _ (by rw [← hexits])).1⟩

end CilSpan
