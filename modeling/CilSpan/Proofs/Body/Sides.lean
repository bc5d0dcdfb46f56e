import CilSpan.Proofs.Body.Numbered
import CilSpan.Proofs.Body.Intact

namespace CilSpan

def makeRoom (index count n : Nat) : Nat := if n < index then n else n + count

theorem strictMono_makeRoom (index count : Nat) : StrictMono (makeRoom index count) := by
  intro m n h
  unfold makeRoom
  split <;> split <;> omega

/-- A new position is in an extent exactly if the extent begins ahead of the place and does not end
ahead of it. -/
theorem covers_new (e : Extent) {index count k : Nat} (hk : k < count) :
    (e.move (makeRoom index count)).covers (index + k) = true ↔
      e.start < index ∧ index ≤ e.stop := by
  rw [Extent.covers, decide_eq_true_iff]
  simp only [Extent.move, makeRoom]
  split <;> split <;> omega

section

variable {α : Type} {xs new : List α} {index n k : Nat} {x : α}

theorem getElem?_makeRoom (h : index ≤ xs.length) (hx : xs[n]? = some x) :
    (xs.take index ++ new ++ xs.drop index)[makeRoom index new.length n]? = some x := by
  have htake : (xs.take index).length = index := List.length_take_of_le h
  unfold makeRoom
  split
  · rename_i hn
    rw [List.append_assoc, List.getElem?_append_left (by omega), List.getElem?_take_of_lt hn, hx]
  · rename_i hn
    rw [List.getElem?_append_right (by rw [List.length_append]; omega), List.getElem?_drop,
      List.length_append, htake]
    rwa [show index + (n + new.length - (index + new.length)) = n by omega]

theorem getElem?_new (h : index ≤ xs.length) (hx : new[k]? = some x) :
    (xs.take index ++ new ++ xs.drop index)[index + k]? = some x := by
  have htake : (xs.take index).length = index := List.length_take_of_le h
  have hk := (List.getElem?_eq_some_iff.1 hx).1
  rw [List.append_assoc, List.getElem?_append_right (by omega), htake, Nat.add_sub_cancel_left,
    List.getElem?_append_left hk, hx]

end

namespace Body

variable {b c : Body} {l : Label} {n index : Nat} {new : List Label} {ops : List Op}

theorem getElem?_labels (h : b.position? l = some n) : b.labels[n]? = some l := by
  obtain ⟨i, hi, rfl⟩ := exists_of_position? h
  rw [labels, List.getElem?_map, hi, Option.map_some]

theorem position?_of_labels (hn : b.labels.Nodup) (h : b.labels[n]? = some l) :
    b.position? l = some n := by
  rw [labels, List.getElem?_map, Option.map_eq_some_iff] at h
  obtain ⟨i, hi, rfl⟩ := h
  exact position?_of_getElem? hn hi

structure Widens (b : Body) (index : Nat) (new : List Label) (c : Body) : Prop where
  index_le : index ≤ b.size
  labels : c.labels = b.labels.take index ++ new ++ b.labels.drop index
  nodup : c.labels.Nodup
  locals : c.locals = b.locals
  regions : c.regions = b.regions

/-- How `e'`, a range of `c`, has come from `e`, the same range of `b`: an old instruction is in it
exactly if it was, a new one exactly if `inside` holds of what the range was. -/
structure SameSides (b c : Body) (new : List Label) (inside : Extent → Prop) (e e' : Extent) :
    Prop where
  old : ∀ l m, b.position? l = some m → ∃ n, c.position? l = some n ∧ e'.covers n = e.covers m
  new : ∀ l ∈ new, ∃ n, c.position? l = some n ∧ (e'.covers n = true ↔ inside e)

/-- In `c` the regions are those of `b`, and their protected ranges and handlers have the same
instructions, apart from the new ones. Ranges are those that a machine resolves. -/
structure KeepsSides (b c : Body) (new : List Label) (inside : Extent → Prop) : Prop where
  regions : c.regions = b.regions
  zones : ∀ r ∈ b.regions, ∃ z z', b.zone r = .ok z ∧ c.zone r = .ok z' ∧
    SameSides b c new inside z.guarded z'.guarded ∧ SameSides b c new inside z.handler z'.handler

namespace Widens

variable (h : b.Widens index new c)
include h

theorem index_le_length : index ≤ b.labels.length := by
  rw [Body.labels, List.length_map]
  exact h.index_le

theorem position? (hl : b.position? l = some n) :
    c.position? l = some (makeRoom index new.length n) := by
  refine position?_of_labels h.nodup ?_
  rw [h.labels]
  exact getElem?_makeRoom h.index_le_length (getElem?_labels hl)

theorem position?_new {k : Nat} (hk : new[k]? = some l) : c.position? l = some (index + k) := by
  refine position?_of_labels h.nodup ?_
  rw [h.labels]
  exact getElem?_new h.index_le_length hk

theorem labels_subset : ∀ l ∈ b.labels, l ∈ c.labels := by
  intro l hl
  obtain ⟨n, hn⟩ := mem_labels_iff.1 hl
  exact mem_labels_iff.2 ⟨_, h.position? hn⟩

theorem ascending {least : Nat} {ls : List Label} (hb : b.Ascending least ls) :
    c.Ascending (makeRoom index new.length least) ls := by
  induction ls generalizing least with
  | nil => trivial
  | cons l ls ih =>
    obtain ⟨n, hl, hle, hrest⟩ := hb
    exact ⟨_, h.position? hl, (strictMono_makeRoom _ _).monotone hle, ih hrest⟩

theorem sound (hb : b.Sound) (hcode : ∀ i ∈ c.code, b.Permits i.op) : c.Sound := by
  have hpermits : ∀ i ∈ c.code, c.Permits i.op := fun i hi ↦
    (hcode i hi).mono h.labels_subset (Nat.le_of_eq (congrArg _ h.locals.symm))
  refine ⟨h.nodup, fun i hi ↦ (hpermits i hi).1, fun i hi ↦ (hpermits i hi).2, fun r hr ↦ ?_⟩
  rw [h.regions] at hr
  exact (h.ascending (hb.region r hr)).mono (Nat.zero_le _)

theorem zone_of {r : Region} {z : Zone} (hz : Zone.Of b r z) :
    Zone.Of c r (z.move (makeRoom index new.length)) where
  cleanup := hz.cleanup
  start := h.position? hz.start
  stop := h.position? hz.stop
  handlerStart := h.position? hz.handlerStart
  handlerStop := h.position? hz.handlerStop

theorem sameSides (e : Extent) : SameSides b c new (fun e ↦ e.start < index ∧ index ≤ e.stop) e
    (e.move (makeRoom index new.length)) where
  old _ m hl := ⟨_, h.position? hl, covers_move (strictMono_makeRoom _ _) e m⟩
  new _ hl := by
    obtain ⟨k, hk⟩ := List.getElem?_of_mem hl
    exact ⟨_, h.position?_new hk, covers_new e (List.getElem?_eq_some_iff.1 hk).1⟩

theorem keepsSides (hb : b.Sound) :
    b.KeepsSides c new fun e ↦ e.start < index ∧ index ≤ e.stop := by
  refine ⟨h.regions, fun r hr ↦ ?_⟩
  obtain ⟨s, hs, -, e, he, -, s', hs', -, e', he', -⟩ := hb.region r hr
  have hz : Zone.Of b r ⟨r.handler = .cleanup, ⟨s, e⟩, ⟨s', e'⟩⟩ := ⟨rfl, hs, he, hs', he'⟩
  exact ⟨_, _, zone_eq_ok hz, zone_eq_ok (h.zone_of hz), h.sameSides _, h.sameSides _⟩

end Widens

theorem permits_of_mem_createAll (hops : ∀ op ∈ ops, b.Permits op) {i : Instr}
    (hi : i ∈ (b.createAll ops).1) : b.Permits i.op := by
  have hop := List.mem_map_of_mem (f := Instr.op) hi
  rw [map_op_createAll] at hop
  exact hops i.op hop

section

variable (hb : b.Sound) (hids : ∀ l ∈ b.labels, l.val < b.next) (hops : ∀ op ∈ ops, b.Permits op)
include hb hids hops

theorem exists_insert (hindex : index ≤ b.size) : ∃ run c,
    b.insert index ops = (.ok (run.map Instr.label), c) ∧ run.map Instr.op = ops ∧
      c.code = b.code.take index ++ run ++ b.code.drop index ∧
      ((∀ l ∈ c.labels, l.val < c.next) ↔ b.next.toNat + ops.length < UInt32.size) ∧
      (b.next.toNat + ops.length < UInt32.size →
        c.Sound ∧ b.Widens index (run.map Instr.label) c) := by
  refine ⟨_, _, insert_of_le hindex ops, map_op_createAll b ops, rfl, ⟨fun hlt ↦ ?_, fun hroom ↦ ?_⟩,
    fun hroom ↦ ?_⟩
  · refine room_of_lt (fun l hl ↦ hlt l ?_)
    rw [labels, List.map_append, List.map_append]
    exact List.mem_append_left _ (List.mem_append_right _ hl)
  · exact ((numbered_of_lt hb.nodup hids).insert hroom (Edit.insert_of_le hindex ops)).lt_next
  · have hnumbered := (numbered_of_lt hb.nodup hids).insert hroom (Edit.insert_of_le hindex ops)
    have hwidens : b.Widens index ((b.createAll ops).1.map Instr.label) _ := ⟨hindex,
      by simp only [labels, List.map_append, List.map_take, List.map_drop], hnumbered.nodup_labels,
      rfl, rfl⟩
    refine ⟨hwidens.sound hb fun i hi ↦ ?_, hwidens⟩
    simp only [List.mem_append] at hi
    obtain (hi | hi) | hi := hi
    · exact hb.permits (List.mem_of_mem_take hi)
    · exact permits_of_mem_createAll hops hi
    · exact hb.permits (List.mem_of_mem_drop hi)

/-- New code at a label: it comes right behind the `nop` that is left there. -/
theorem exists_insertAhead {anchor : Label} (hanchor : anchor ∈ b.labels) :
    ∃ before op after run moved c,
      b.code = before ++ ⟨anchor, op⟩ :: after ∧ b.insertAhead anchor ops = (some moved, c) ∧
      run.map Instr.op = ops ∧ c.code = before ++ ⟨anchor, .nop⟩ :: run ++ ⟨moved, op⟩ :: after ∧
      c.find? anchor = some ⟨anchor, .nop⟩ ∧
      ((∀ l ∈ c.labels, l.val < c.next) ↔ b.next.toNat + (ops.length + 1) < UInt32.size) ∧
      (b.next.toNat + (ops.length + 1) < UInt32.size →
        c.Sound ∧ b.Widens (before.length + 1) (run.map Instr.label ++ [moved]) c) := by
  cases hcut : cut? anchor b.code with
  | none =>
    obtain ⟨i, hi, rfl⟩ := List.mem_map.1 hanchor
    exact absurd rfl (cut?_eq_none.1 hcut i hi)
  | some parts =>
    obtain ⟨before, op, after⟩ := parts
    obtain ⟨hcode, hbefore⟩ := cut?_eq_some.1 hcut
    have hinsert := insertAhead_of_cut hcut ops
    have hnumbered := (numbered_of_lt hb.nodup hids).expand (fun _ ↦ .nop) (fun op ↦ ops ++ [op])
      hanchor (fun _ ↦ List.length_append)
    rw [← insertAhead_eq_expand, hinsert] at hnumbered
    refine ⟨before, op, after, _, _, _, hcode, hinsert, map_op_createAll b ops, rfl, ?_,
      ⟨fun hlt ↦ ?_, fun hroom ↦ (hnumbered hroom).lt_next⟩, fun hroom ↦ ?_⟩
    · have hnone : before.find? (fun i ↦ i.label = anchor) = none :=
        List.find?_eq_none.2 fun i hi ↦ by simpa using hbefore i hi
      simp [find?, hnone]
    · have hlength : (ops ++ [op]).length = ops.length + 1 := List.length_append
      rw [← hlength]
      refine room_of_lt (fun l hl ↦ hlt l ?_)
      rw [createAll_append, List.map_append] at hl
      simp only [labels, List.map_append, List.map_cons]
      obtain hl | hl := List.mem_append.1 hl
      · exact List.mem_append_left _ (List.mem_append_right _ (List.mem_cons_of_mem _ hl))
      · obtain rfl := List.mem_singleton.1 hl
        exact List.mem_append_right _ List.mem_cons_self
    · have hlabels : b.labels = (before.map Instr.label ++ [anchor]) ++ after.map Instr.label := by
        simp [labels, hcode]
      have hlength : (before.map Instr.label ++ [anchor]).length = before.length + 1 := by simp
      have hwidens : b.Widens (before.length + 1)
          ((b.createAll ops).1.map Instr.label ++ [(b.createAll ops).2.freshLabel]) _ := ⟨
        by simp [size, hcode],
        by rw [hlabels, List.take_left' hlength, List.drop_left' hlength]; simp [labels],
        (hnumbered hroom).nodup_labels, rfl, rfl⟩
      refine ⟨hwidens.sound hb ?_, hwidens⟩
      have hold := fun i ↦ hb.permits (i := i)
      simp only [hcode, List.mem_append, List.mem_cons] at hold ⊢
      rintro i ((hi | rfl | hi) | rfl | hi)
      · exact hold i (.inl hi)
      · exact permits_of_plain rfl rfl
      · exact permits_of_mem_createAll hops hi
      · exact hold ⟨anchor, op⟩ (.inr (.inl rfl))
      · exact hold i (.inr (.inr hi))

end

def adjoined : Body where
  code := [⟨⟨0⟩, .nop⟩, ⟨⟨1⟩, .ldarg 0⟩, ⟨⟨2⟩, .branch .leave .short ⟨5⟩⟩, ⟨⟨3⟩, .nop⟩,
    ⟨⟨4⟩, .endfinally⟩, ⟨⟨5⟩, .ret⟩]
  locals := [.int32]
  regions := [⟨.cleanup, ⟨1⟩, ⟨3⟩, ⟨3⟩, ⟨5⟩⟩]
  initLocals := true
  next := 6

def nearlySpent : Body where
  code := [⟨⟨0⟩, .ret⟩]
  locals := []
  regions := []
  initLocals := false
  next := 4294967295

end Body

end CilSpan
