import CilSpan.Proofs.Machine.Embed

namespace CilSpan

namespace Body

variable {b c : Body} {op : Op}

def Permits (b : Body) (op : Op) : Prop :=
  (∀ t, op.target? = some t → t ∈ b.labels) ∧ ∀ k, op.slot? = some k → k.toNat < b.locals.length

theorem permits_of_plain (ht : op.target? = none) (hs : op.slot? = none) : b.Permits op := by
  refine ⟨fun t h ↦ ?_, fun k h ↦ ?_⟩
  · rw [ht] at h
    cases h
  · rw [hs] at h
    cases h

theorem permits_of_target {t : Label} (ht : op.target? = some t) (hs : op.slot? = none)
    (h : t ∈ b.labels) : b.Permits op := by
  refine ⟨fun t' h' ↦ ?_, fun k h' ↦ ?_⟩
  · rw [ht] at h'
    exact Option.some_inj.1 h' ▸ h
  · rw [hs] at h'
    cases h'

theorem permits_of_slot {k : UInt16} (ht : op.target? = none) (hs : op.slot? = some k)
    (h : k.toNat < b.locals.length) : b.Permits op := by
  refine ⟨fun t h' ↦ ?_, fun k' h' ↦ ?_⟩
  · rw [ht] at h'
    cases h'
  · rw [hs] at h'
    exact Option.some_inj.1 h' ▸ h

theorem Sound.permits (h : b.Sound) {i : Instr} (hi : i ∈ b.code) : b.Permits i.op :=
  ⟨h.target i hi, h.slot i hi⟩

theorem Permits.mono (h : b.Permits op) (hlabels : ∀ l ∈ b.labels, l ∈ c.labels)
    (hlocals : b.locals.length ≤ c.locals.length) : c.Permits op :=
  ⟨fun t ht ↦ hlabels t (h.1 t ht), fun k hk ↦ Nat.lt_of_lt_of_le (h.2 k hk) hlocals⟩

theorem Ascending.mono {least least' : Nat} (hle : least' ≤ least) {ls : List Label}
    (h : b.Ascending least ls) : b.Ascending least' ls := by
  cases ls with
  | nil => trivial
  | cons l ls =>
    obtain ⟨n, hn, hleast, hrest⟩ := h
    exact ⟨n, hn, hle.trans hleast, hrest⟩

theorem boundaryFlaw?_addRegion (b : Body) (r : Region) (index least : Nat) (ls : List Label) :
    (b.addRegion r).boundaryFlaw? index least ls = b.boundaryFlaw? index least ls := by
  induction ls generalizing least with
  | nil => rfl
  | cons l ls ih =>
    simp only [boundaryFlaw?, ih]
    rfl

/-- The flaw of a sound body with one more region is that of the region. -/
theorem Sound.flaw?_addRegion (h : b.Sound) (r : Region) :
    (b.addRegion r).flaw? = b.regionFlaw? b.regions.length r := by
  have hcode : b.code.findSome? b.instrFlaw? = none :=
    List.findSome?_eq_none_iff.2 fun i hi ↦ instrFlaw?_eq_none.2 (h.permits hi)
  have hregions : ∀ x ∈ b.regions.zipIdx, b.regionFlaw? x.2 x.1 = none := fun x hx ↦
    boundaryFlaw?_eq_none.2 (h.region x.1 (List.fst_mem_of_mem_zipIdx hx))
  have hcode' : (b.addRegion r).code.findSome? (b.addRegion r).instrFlaw? = none := hcode
  have hregion (r' : Region) (index : Nat) :
      (b.addRegion r).regionFlaw? index r' = b.regionFlaw? index r' :=
    boundaryFlaw?_addRegion b r index 0 r'.boundaries
  have hlabels : firstRepeat [] (b.addRegion r).labels = none :=
    firstRepeat_eq_none.2 ⟨h.nodup, by simp⟩
  simp only [flaw?, hlabels, hcode', hregion]
  simp only [addRegion, List.zipIdx_append, List.findSome?_append,
    List.findSome?_eq_none_iff.2 hregions]
  simp

end Body

namespace Spliced

variable {b c : Body} {start : Nat} {front : List Op} {main : Instr → Op}
  {behind : Instr → List Op} {xs : List Piece} {tail : List Instr}

variable (h : Spliced start front main behind b.code xs)
include h

theorem exists_of_mem {x : Piece} (hx : x ∈ xs) : ∃ n i, b.code[n]? = some i ∧
    x.main = ⟨i.label, main i⟩ ∧ x.behind.map Instr.op = behind i ∧
      x.ahead.map Instr.op = if n = start then front else [] := by
  obtain ⟨n, hn⟩ := List.getElem?_of_mem hx
  have hlt : n < b.code.length := h.length ▸ (List.getElem?_eq_some_iff.1 hn).1
  obtain ⟨y, hy, hpiece⟩ := h.piece n _ (List.getElem?_eq_getElem hlt)
  obtain rfl : x = y := Option.some_inj.1 (hn.symm.trans hy)
  exact ⟨n, _, List.getElem?_eq_getElem hlt, hpiece⟩

theorem labels_subset (hc : c.code = rebuild xs tail) : ∀ l ∈ b.labels, l ∈ c.labels := by
  intro l hl
  rw [Body.labels, ← h.map_label] at hl
  rw [Body.labels, hc]
  exact (labels_sublist_rebuild xs tail).subset hl

theorem ascending (hc : c.code = rebuild xs tail) (hn : c.labels.Nodup) {least : Nat}
    {ls : List Label} (hb : b.Ascending least ls) : c.Ascending (place xs least) ls := by
  induction ls generalizing least with
  | nil => trivial
  | cons l ls ih =>
    obtain ⟨n, hl, hle, hrest⟩ := hb
    exact ⟨_, h.position? hc hn hl, (strictMono_place xs).monotone hle, ih hrest⟩

theorem forall_op (hc : c.code = rebuild xs tail) {P : Op → Prop} (hfront : ∀ op ∈ front, P op)
    (hops : ∀ i ∈ b.code, ∀ op ∈ main i :: behind i, P op) (htail : ∀ j ∈ tail, P j.op) :
    ∀ j ∈ c.code, P j.op := by
  intro j hj
  rw [hc, rebuild, List.mem_append, List.mem_flatMap] at hj
  obtain ⟨x, hx, hj⟩ | hj := hj
  · obtain ⟨n, i, hi, hmain, hbehind, hahead⟩ := h.exists_of_mem hx
    have hop := List.mem_map_of_mem (f := Instr.op) hj
    rw [Piece.code, List.map_append, List.map_cons, hmain, hbehind, hahead] at hop
    obtain hop | hop := List.mem_append.1 hop
    · split at hop
      · exact hfront _ hop
      · cases hop
    · exact hops i (List.mem_of_getElem? hi) _ hop
  · exact htail j hj

theorem sound (hb : b.Sound) (hc : c.code = rebuild xs tail) (hn : c.labels.Nodup)
    (hfront : ∀ op ∈ front, c.Permits op)
    (hops : ∀ i ∈ b.code, c.Permits i.op → ∀ op ∈ main i :: behind i, c.Permits op)
    (htail : ∀ j ∈ tail, c.Permits j.op) (hlocals : b.locals.length ≤ c.locals.length)
    (hregions : c.regions = b.regions) : c.Sound := by
  have hpermits := h.forall_op hc hfront
    (fun i hi ↦ hops i hi ((hb.permits hi).mono (h.labels_subset hc) hlocals)) htail
  refine ⟨hn, fun i hi ↦ (hpermits i hi).1, fun i hi ↦ (hpermits i hi).2, fun r hr ↦ ?_⟩
  rw [hregions] at hr
  exact (h.ascending hc hn (hb.region r hr)).mono (Nat.zero_le _)

end Spliced

end CilSpan
