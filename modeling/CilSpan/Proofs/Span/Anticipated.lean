import CilSpan.Proofs.Machine.Embed
import CilSpan.Proofs.Span.Edited

namespace CilSpan

namespace Body

variable {b c : Body} {n locals : Nat} {labels ls : List Label}

/-- `Sound`, but for references to the given labels and to so many slots behind the last local. -/
structure SoundBut (b : Body) (labels : List Label) (locals : Nat) : Prop where
  nodup : b.labels.Nodup
  target : ∀ i ∈ b.code, ∀ t, i.op.target? = some t → t ∈ b.labels ∨ t ∈ labels
  slot : ∀ i ∈ b.code, ∀ k, i.op.slot? = some k → k.toNat < b.locals.length + locals
  boundary : ∀ r ∈ b.regions, ∀ l ∈ r.boundaries, l ∈ b.labels ∨ l ∈ labels
  order : ∀ r ∈ b.regions, (r.boundaries.filterMap b.position?).Pairwise (· ≤ ·)

def Anticipates (b : Body) (labels : List Label) : Prop :=
  (∃ l ∈ b.targets ++ b.regions.flatMap Region.boundaries, l ∈ labels ∧ l ∉ b.labels) ∨
    ∃ i ∈ b.code, ∃ k, i.op.slot? = some k ∧ b.locals.length ≤ k.toNat

theorem SoundBut.flaw?_eq_none_iff (h : b.SoundBut labels locals) :
    b.flaw? = none ↔ ¬b.Anticipates labels := by
  rw [flaw?_eq_none]
  constructor
  · rintro hs (⟨l, hl, -, hnot⟩ | ⟨i, hi, k, hk, hle⟩)
    · obtain ht | hr := List.mem_append.1 hl
      · obtain ⟨i, hi, ht⟩ := mem_targets_iff.1 ht
        exact hnot (hs.target i hi l ht)
      · obtain ⟨r, hr, hl⟩ := List.mem_flatMap.1 hr
        exact hnot ((ascending_iff.1 (hs.region r hr)).1 l hl)
    · exact Nat.not_lt_of_le hle (hs.slot i hi k hk)
  · intro hnot
    obtain ⟨hlabels, hslots⟩ := not_or.1 hnot
    have held {l : Label} (hl : l ∈ b.targets ++ b.regions.flatMap Region.boundaries)
        (hor : l ∈ b.labels ∨ l ∈ labels) : l ∈ b.labels := by
      by_contra hne
      exact hlabels ⟨l, hl, hor.resolve_left hne, hne⟩
    refine ⟨h.nodup, fun i hi t ht ↦ ?_, fun i hi k hk ↦ ?_, fun r hr ↦ ?_⟩
    · refine held (List.mem_append_left _ ?_) (h.target i hi t ht)
      exact mem_targets_iff.2 ⟨i, hi, ht⟩
    · by_contra hlt
      exact hslots ⟨i, hi, k, hk, Nat.le_of_not_lt hlt⟩
    · refine ascending_iff.2 ⟨fun l hl ↦ ?_, fun _ _ ↦ Nat.zero_le _, h.order r hr⟩
      refine held (List.mem_append_right _ ?_) (h.boundary r hr l hl)
      exact List.mem_flatMap.2 ⟨r, hr, hl⟩

theorem SoundBut.of_lengthen (h : b.lengthen.SoundBut labels locals) :
    b.SoundBut labels locals := by
  obtain ⟨hnodup, htarget, hslot, hboundary, horder⟩ := h
  have hpos : b.lengthen.position? = b.position? := funext b.position?_lengthen
  simp only [labels_lengthen] at hnodup htarget hboundary
  refine ⟨hnodup, fun i hi t ht ↦ ?_, fun i hi k hk ↦ ?_, hboundary, hpos ▸ horder⟩
  · exact htarget _ (List.mem_map_of_mem hi) t (by rwa [Op.target?_lengthen])
  · exact hslot _ (List.mem_map_of_mem hi) k (by rwa [Op.slot?_lengthen])

end Body

/-- Each old instruction still does what it did, there or behind, if that refers to anything; so
what it refers to is in the new body. -/
theorem Spliced.soundBut {b c : Body} {start locals : Nat} {front : List Op} {main : Instr → Op}
    {behind : Instr → List Op} {xs : List Piece} {tail : List Instr} {labels : List Label}
    (h : Spliced start front main behind b.code xs) (hc : c.code = rebuild xs tail) (hs : c.Sound)
    (hold : ∀ i ∈ b.code, i.op ≠ .ret → i.op ∈ main i :: behind i)
    (hlabels : ∀ l ∈ c.labels, l ∈ b.labels ∨ l ∈ labels)
    (hlocals : c.locals.length = b.locals.length + locals)
    (hregions : ∀ r ∈ b.regions, r ∈ c.regions) : b.SoundBut labels locals := by
  have hop : ∀ i ∈ b.code, i.op ≠ .ret → ∃ j ∈ c.code, j.op = i.op := by
    intro i hi hret
    obtain ⟨n, hn⟩ := List.getElem?_of_mem hi
    obtain ⟨x, hx, hmain, hbehind, -⟩ := h.piece n i hn
    have hmem : i.op ∈ (x.main :: x.behind).map Instr.op := by
      rw [List.map_cons, hmain, hbehind]
      exact hold i hi hret
    obtain ⟨j, hj, hji⟩ := List.mem_map.1 hmem
    obtain ⟨k, hk⟩ := List.getElem?_of_mem hj
    exact ⟨j, List.mem_of_getElem? (holds_place hc hx k j hk), hji⟩
  refine ⟨?_, fun i hi t ht ↦ ?_, fun i hi k hk ↦ ?_, fun r hr l hl ↦ ?_, fun r hr ↦ ?_⟩
  · have hsub : b.labels.Sublist c.labels := by
      rw [Body.labels, ← h.map_label, Body.labels, hc]
      exact labels_sublist_rebuild xs tail
    exact hs.nodup.sublist hsub
  · obtain ⟨j, hj, hji⟩ := hop i hi (by rintro hret; rw [hret] at ht; cases ht)
    exact hlabels t (hs.target j hj t (hji ▸ ht))
  · obtain ⟨j, hj, hji⟩ := hop i hi (by rintro hret; rw [hret] at hk; cases hk)
    exact hlocals ▸ hs.slot j hj k (hji ▸ hk)
  · exact hlabels l ((Body.ascending_iff.1 (hs.region r (hregions r hr))).1 l hl)
  · obtain ⟨-, -, hpair⟩ := Body.ascending_iff.1 (hs.region r (hregions r hr))
    rw [List.pairwise_filterMap] at hpair ⊢
    refine hpair.imp fun hle m hm n hn ↦ ?_
    have hplace := hle _ (h.position? hc hs.nodup hm) _ (h.position? hc hs.nodup hn)
    exact (strictMono_place xs).le_iff_le.1 hplace

section

variable {b b' c : Body} {result : TypeName} {name : String} {hooks : Hooks}

theorem Framed.soundBut {start n : Nat} {x : Frame} (h : Framed b c start result name hooks x)
    (hc : c.Sound) (hlabels : ∀ l ∈ c.labels, l ∈ b.labels ∨ l ∈ b.coming n) :
    b.SoundBut (b.coming n) (resultLocals result).length := by
  obtain ⟨i, -, hregions⟩ := h.regions
  refine h.spliced.soundBut h.code hc (fun i _ hret ↦ ?_) hlabels ?_ fun r hr ↦ ?_
  · rw [if_neg hret]
    exact List.mem_cons_self
  · rw [h.locals, List.length_append]
  · rw [hregions]
    exact List.mem_append_left _ hr

theorem soundBut_of_bracket {base : Option TypeName}
    (h : b.bracket base result name hooks = (.ok (), b')) :
    b.SoundBut (b.coming (b.bracketDraw result)) (resultLocals result).length := by
  obtain ⟨c, x, start, hlen, hc, hframed⟩ : ∃ c x start, b'.lengthen = c.lengthen ∧ c.Sound ∧
      Framed b.lengthen c start result name hooks x := by
    cases base with
    | none =>
      obtain ⟨c, x, hlen, hc, -, hframed⟩ := bracket_eq_ok h
      exact ⟨c, x, 0, hlen, hc, hframed⟩
    | some base =>
      obtain ⟨k, -, c, x, -, hlen, hc, -, hframed⟩ := bracket_base_eq_ok h
      exact ⟨c, x, k + 1, hlen, hc, hframed⟩
  have haccepted := accepted_of_bracket h
  exact (hframed.soundBut hc fun l ↦ haccepted.mem_labels hlen).of_lengthen

theorem soundBut_of_correlate {id : Int32} {pattern : StepPattern} {exits : Exits}
    (h : b.correlate id name hooks pattern = (.ok exits, b')) :
    b.SoundBut (b.coming exits.draw) 0 := by
  obtain ⟨c, xs, entry, hlen, hc, -, -, -, hwoven⟩ :=
    correlate_eq_ok (nodup_labels_of_correlate h) h
  have hsound : b.lengthen.SoundBut (b.coming exits.draw) 0 := by
    have haccepted := accepted_of_correlate h
    refine hwoven.spliced.soundBut hwoven.code hc (fun i _ _ ↦ ?_)
      (fun l ↦ haccepted.mem_labels hlen) ?_ fun r hr ↦ ?_
    · split
      · exact List.mem_cons_of_mem _ (List.mem_append_right _ (List.mem_singleton_self _))
      · exact List.mem_singleton_self _
    · rw [hwoven.locals]
      rfl
    · rwa [hwoven.regions]
  exact hsound.of_lengthen

end

/-- A body that an instrumentation accepts has no flaw, unless it refers to labels that it does not
hold but that the instrumentation hands out, or to the slot that the instrumentation declares. -/
theorem accepted_flawless_iff :
    (∀ (b b' : Body) base result name hooks, b.bracket base result name hooks = (.ok (), b') →
      b.SoundBut (b.coming (b.bracketDraw result)) (resultLocals result).length ∧
        (b.flaw? = none ↔ ¬b.Anticipates (b.coming (b.bracketDraw result)))) ∧
    ∀ (b b' : Body) id name hooks pattern exits,
      b.correlate id name hooks pattern = (.ok exits, b') →
        b.SoundBut (b.coming exits.draw) 0 ∧
          (b.flaw? = none ↔ ¬b.Anticipates (b.coming exits.draw)) := by
  refine ⟨fun b b' base result name hooks h ↦ ?_, fun b b' id name hooks pattern exits h ↦ ?_⟩
  · have hb := soundBut_of_bracket h
    exact ⟨hb, hb.flaw?_eq_none_iff⟩
  · have hb := soundBut_of_correlate h
    exact ⟨hb, hb.flaw?_eq_none_iff⟩

def earlyBranch : Body where
  code := [⟨⟨0⟩, .branch .always .long ⟨3⟩⟩, ⟨⟨1⟩, .branch .leave .long ⟨2⟩⟩, ⟨⟨2⟩, .ret⟩]
  locals := []
  regions := []
  initLocals := false
  next := 3

def earlyLoad : Body where
  code := [⟨⟨0⟩, .ldloc 0⟩, ⟨⟨1⟩, .ret⟩]
  locals := []
  regions := []
  initLocals := false
  next := 2

theorem accepted_flawless_earlyBranch :
    let b := earlyBranch
    let hooks := Hooks.on ⟨"App", "Tracer"⟩
    (b.bracket none .void "work" hooks).1 = .ok () ∧ b.SoundBut (b.coming 6) 0 ∧
      (b.flaw? = none ↔ ¬b.Anticipates (b.coming 6)) ∧
      (b.correlate 1 "work" hooks .standard).1 = .ok ⟨⟨2⟩, [⟨1⟩], []⟩ ∧
      b.SoundBut (b.coming 7) 0 ∧ (b.flaw? = none ↔ ¬b.Anticipates (b.coming 7)) := by
  intro b hooks
  have hok : (b.bracket none .void "work" hooks).1 = .ok () := by decide +kernel
  have hexits : (b.correlate 1 "work" hooks .standard).1 = .ok ⟨⟨2⟩, [⟨1⟩], []⟩ := by
    decide +kernel
  obtain ⟨hbracket, hcorrelate⟩ := accepted_flawless_iff
  have hwrapped := hbracket b _ none .void "work" hooks (by rw [← hok])
  have hstepped := hcorrelate b _ 1 "work" hooks .standard _ (by rw [← hexits])
  exact ⟨hok, hwrapped.1, hwrapped.2, hexits, hstepped.1, hstepped.2⟩

theorem accepted_flawed :
    let hooks := Hooks.on ⟨"App", "Tracer"⟩
    (earlyBranch.bracket none .void "work" hooks).1 = .ok () ∧
      (earlyBranch.correlate 1 "work" hooks .standard).1 = .ok ⟨⟨2⟩, [⟨1⟩], []⟩ ∧
      earlyBranch.flaw? = some (.danglingBranch ⟨0⟩ ⟨3⟩) ∧
      (earlyLoad.bracket none .int32 "work" hooks).1 = .ok () ∧
      earlyLoad.flaw? = some (.undeclaredLocal ⟨0⟩ 0) := by
  decide +kernel

end CilSpan
