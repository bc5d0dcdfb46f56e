import CilSpan.Proofs.Body.Numbered
import CilSpan.Proofs.Draft.Outline

namespace CilSpan

namespace Desk

theorem getElem?_append_of_some {α : Type} {xs : List α} {n : Nat} {x : α} (h : xs[n]? = some x)
    (more : List α) : (xs ++ more)[n]? = some x := by
  rw [List.getElem?_append_left (List.getElem?_eq_some_iff.1 h).1, h]

theorem number_unique {ls : List Label} (hls : ls.Nodup) {k m : Nat} {l : Label}
    (hk : ls[k]? = some l) (hm : ls[m]? = some l) : k = m :=
  (List.getElem?_inj (List.getElem?_eq_some_iff.1 hk).1 hls).1 (hk.trans hm.symm)

/-- The instruction does what the outline says. If a label was bound to it, it has that label, and else
it has none of those that were handed out. -/
def Carries (ls : List Label) (w : Option Nat × Op) (i : Instr) : Prop :=
  i.op = w.2 ∧ match w.1 with
    | some k => ls[k]? = some i.label
    | none => i.label ∉ ls

def own (ls : List Label) (b : Body) : List Label := b.labels.filter (· ∉ ls)

/-- The code of the body is `ws`, where `ls` are the labels that were handed out. -/
structure Carried (ls : List Label) (b : Body) (ws : List (Option Nat × Op)) : Prop where
  next : b.next.toNat = ls.length + ws.countP fun w ↦ w.1.isNone
  distinct : (ls ++ own ls b).Nodup
  below : ∀ l ∈ ls ++ b.labels, l.val < b.next
  code : List.Forall₂ (Carries ls) ws b.code

namespace Carried

variable {ls : List Label} {b : Body} {ws : List (Option Nat × Op)} {l : Label} {k : Nat} {op : Op}

theorem lt_add_one (h : Carried ls b ws) (hroom : b.next.toNat + 1 < UInt32.size) :
    ∀ l ∈ ls ++ b.labels, l.val < b.next + 1 := by
  intro l hl
  have hlt := UInt32.lt_iff_toNat_lt.1 (h.below l hl)
  rw [UInt32.lt_iff_toNat_lt, Body.toNat_add_one hroom]
  omega

theorem fresh_lt (hroom : b.next.toNat + 1 < UInt32.size) : b.freshLabel.val < b.next + 1 := by
  rw [UInt32.lt_iff_toNat_lt, Body.toNat_add_one hroom]
  exact Nat.lt_add_one _

theorem fresh_not_mem (h : Carried ls b ws) : b.freshLabel ∉ ls ++ b.labels := fun hl ↦
  UInt32.lt_irrefl _ (h.below _ hl)

theorem nodup_fresh (h : Carried ls b ws) : (b.freshLabel :: (ls ++ own ls b)).Nodup :=
  List.nodup_cons.2 ⟨fun hl ↦ h.fresh_not_mem
    (((List.append_sublist_append_left ls).2 List.filter_sublist).subset hl), h.distinct⟩

theorem of_eq {c : Body} (h : Carried ls b ws) (hnext : c.next = b.next) (hcode : c.code = b.code) :
    Carried ls c ws := by
  have hlabels : c.labels = b.labels := congrArg (List.map Instr.label) hcode
  exact ⟨hnext ▸ h.next, by rw [own, hlabels]; exact h.distinct, hnext ▸ hlabels ▸ h.below,
    hcode ▸ h.code⟩

theorem label (h : Carried ls b ws) (hroom : b.next.toNat + 1 < UInt32.size) :
    Carried (ls ++ [b.freshLabel]) { b with next := b.next + 1 } ws where
  next := by
    simp only [Body.toNat_add_one hroom, h.next, List.length_append, List.length_singleton]
    omega
  distinct := by
    have hfresh := h.fresh_not_mem
    have hown : own (ls ++ [b.freshLabel]) { b with next := b.next + 1 } = own ls b :=
      List.filter_congr fun l hl ↦ by
        have hne : l ≠ b.freshLabel := fun he ↦ hfresh (List.mem_append_right _ (he ▸ hl))
        simp [hne]
    rw [hown, List.append_assoc, List.singleton_append, List.perm_middle.nodup_iff]
    exact h.nodup_fresh
  below := by
    have hlt := h.lt_add_one hroom
    simp only [List.mem_append, List.mem_singleton] at hlt ⊢
    rintro l ((hl | rfl) | hl)
    · exact hlt l (.inl hl)
    · exact fresh_lt hroom
    · exact hlt l (.inr hl)
  code := by
    have hne : ∀ i ∈ b.code, i.label ≠ b.freshLabel := fun i hi he ↦
      h.fresh_not_mem (List.mem_append_right _ (he ▸ List.mem_map_of_mem hi))
    refine (((List.forall₂_and_left _ _).2 ⟨hne, h.code.flip⟩).imp ?_).flip
    rintro i ⟨k?, op⟩ ⟨hi, hop, hlabel⟩
    refine ⟨hop, ?_⟩
    cases k? with
    | none => simpa [hi] using hlabel
    | some k => exact getElem?_append_of_some hlabel _

theorem append (h : Carried ls b ws) (hk : ls[k]? = some l) (op : Op) :
    Carried ls (b.append [⟨l, op⟩]) (ws ++ [(some k, op)]) where
  next := by simpa [Body.append] using h.next
  distinct := by
    have hl : l ∈ ls := List.mem_of_getElem? hk
    simpa [own, Body.labels, Body.append, hl] using h.distinct
  below := by
    have hl : l ∈ ls := List.mem_of_getElem? hk
    have hlt := h.below
    simp only [Body.labels, Body.append, List.map_append, List.map_cons, List.map_nil,
      List.mem_append, List.mem_singleton] at hlt ⊢
    rintro l' (hl' | hl' | rfl)
    · exact hlt l' (.inl hl')
    · exact hlt l' (.inr hl')
    · exact hlt l' (.inl hl)
  code := List.rel_append h.code (.cons ⟨rfl, hk⟩ .nil)

theorem push (h : Carried ls b ws) (hroom : b.next.toNat + 1 < UInt32.size) (op : Op) :
    Carried ls (b.push op).2 (ws ++ [(none, op)]) where
  next := by
    rw [List.countP_append, ← Nat.add_assoc, ← h.next]
    exact Body.toNat_add_one hroom
  distinct := by
    have hfresh : b.freshLabel ∉ ls := fun hl ↦ h.fresh_not_mem (List.mem_append_left _ hl)
    have hown : own ls (b.push op).2 = own ls b ++ [b.freshLabel] := by
      simp [own, Body.labels, Body.push, Body.create, Body.append, hfresh]
    rw [hown, ← List.append_assoc, (List.perm_append_singleton _ _).nodup_iff]
    exact h.nodup_fresh
  below := by
    have hlt := h.lt_add_one hroom
    simp only [Body.labels, Body.push, Body.create, Body.append, List.map_append, List.map_cons,
      List.map_nil, List.mem_append, List.mem_singleton] at hlt ⊢
    rintro l (hl | hl | rfl)
    · exact hlt l (.inl hl)
    · exact hlt l (.inr hl)
    · exact fresh_lt hroom
  code := by
    have hfresh : b.freshLabel ∉ ls := fun hl ↦ h.fresh_not_mem (List.mem_append_left _ hl)
    exact List.rel_append h.code (.cons ⟨rfl, hfresh⟩ .nil)

end Carried

def Zone.Fences (ls : List Label) (z : Zone) (r : Region) : Prop :=
  r.handler = z.handler ∧ z.numbers.map (ls[·]?) = r.boundaries.map some

theorem Zone.Fences.append {ls : List Label} {z : Zone} {r : Region} (h : z.Fences ls r)
    (more : List Label) : z.Fences (ls ++ more) r := by
  refine ⟨h.1, h.2 ▸ List.map_congr_left fun k hk ↦ ?_⟩
  have hmem : ls[k]? ∈ r.boundaries.map some := h.2 ▸ List.mem_map_of_mem hk
  obtain ⟨l, -, hl⟩ := List.mem_map.1 hmem
  rw [← hl, getElem?_append_of_some hl.symm]

/-- The desk holds what the outline asks for. -/
structure Follows (o : Outline) (s : Desk) : Prop where
  handed : s.labels.length = o.labels
  carried : Carried s.labels s.draft.body (written o.marks)
  bound : ∀ k ∈ bound o.marks, k < o.labels
  waiting : s.draft.waiting = (open? o.marks).bind (s.labels[·]?)
  unbound : ∀ l, l ∈ s.draft.unbound ↔ ∃ k, s.labels[k]? = some l ∧ k ∉ Desk.bound o.marks
  locals : s.draft.body.locals = o.locals.take UInt16.size
  regions : List.Forall₂ (Zone.Fences s.labels) o.zones s.draft.body.regions
  initLocals : s.draft.body.initLocals = o.initLocals

namespace Follows

variable {o : Outline} {s : Desk} {act : Act} {number : Nat}

theorem drawn_eq (h : Follows o s) : s.draft.body.next.toNat = o.drawn := by
  rw [h.carried.next, h.handed]
  rfl

/-- A label that waits has been handed out. -/
theorem waiting_cases (h : Follows o s) :
    (open? o.marks = none ∧ s.draft.waiting = none) ∨
    ∃ k l, open? o.marks = some k ∧ s.labels[k]? = some l ∧ s.draft.waiting = some l := by
  have hwaiting := h.waiting
  cases hopen : open? o.marks with
  | none => exact .inl ⟨rfl, by simpa [hopen] using hwaiting⟩
  | some k =>
    have hk : k < s.labels.length := h.handed ▸ h.bound k (by simp [bound_eq, hopen])
    refine .inr ⟨k, s.labels[k], rfl, List.getElem?_eq_getElem hk, ?_⟩
    simpa [hopen, hk] using hwaiting

theorem label (h : Follows o s) (hroom : (o.note .label).drawn < UInt32.size) :
    Follows (o.note .label) (s.perform .label).2 := by
  have hnext : s.draft.body.next.toNat + 1 < UInt32.size := by
    simp only [Outline.drawn, Outline.note] at hroom
    rw [h.drawn_eq, Outline.drawn]
    omega
  refine ⟨by simp [perform, Draft.label, Outline.note, h.handed], h.carried.label hnext,
    fun k hk ↦ Nat.lt_succ_of_lt (h.bound k hk), ?_, fun l ↦ ?_, h.locals, ?_, h.initLocals⟩
  · simp only [perform, Draft.label, Outline.note]
    obtain ⟨hopen, hwaiting⟩ | ⟨k, l, hopen, hl, hwaiting⟩ := h.waiting_cases
    · rw [hopen, hwaiting, Option.bind_none]
    · rw [hopen, hwaiting, Option.bind_some, getElem?_append_of_some hl]
  · simp only [perform, Draft.label, Outline.note, List.mem_cons, h.unbound]
    constructor
    · rintro (rfl | ⟨k, hl, hk⟩)
      · exact ⟨s.labels.length, by simp, fun hk ↦ Nat.lt_irrefl _ (h.handed ▸ h.bound _ hk)⟩
      · exact ⟨k, getElem?_append_of_some hl _, hk⟩
    · rintro ⟨k, hl, hk⟩
      obtain hlt | hge := Nat.lt_or_ge k s.labels.length
      · exact .inr ⟨k, List.getElem?_append_left hlt ▸ hl, hk⟩
      · rw [List.getElem?_append_right hge, List.getElem?_singleton] at hl
        obtain ⟨-, hfresh⟩ := Option.ite_none_right_eq_some.1 hl
        exact .inl (Option.some.inj hfresh).symm
  · exact h.regions.imp fun z r hz ↦ hz.append _

theorem emit (h : Follows o s) (hroom : (o.note (.emit op)).drawn < UInt32.size) :
    Follows (o.note (.emit op)) (s.perform (.emit op)).2 := by
  have hbound : Desk.bound (o.note (.emit op)).marks = Desk.bound o.marks := by
    simp [Outline.note, Desk.bound]
  obtain ⟨hopen, hwaiting⟩ | ⟨k, l, hopen, hl, hwaiting⟩ := h.waiting_cases
  · have hnext : s.draft.body.next.toNat + 1 < UInt32.size := by
      simpa [h.drawn_eq, Outline.drawn, Outline.note, written_emit, hopen, Nat.add_assoc] using hroom
    have hcode := h.carried.push hnext op
    simp only [perform, Draft.emit, hwaiting]
    refine ⟨h.handed, ?_, hbound ▸ h.bound, ?_, hbound ▸ h.unbound, h.locals, h.regions, h.initLocals⟩
    · simpa [Outline.note, written_emit, hopen] using hcode
    · simp [Outline.note, open?_emit]
  · have hcode := h.carried.append hl op
    simp only [perform, Draft.emit, hwaiting]
    refine ⟨h.handed, ?_, hbound ▸ h.bound, ?_, hbound ▸ h.unbound, h.locals, h.regions, h.initLocals⟩
    · simpa [Outline.note, written_emit, hopen] using hcode
    · simp [Outline.note, open?_emit]

theorem emitAll (h : Follows o s) (ops : List Op)
    (hroom : (o.note (.emitAll ops)).drawn < UInt32.size) :
    Follows (o.note (.emitAll ops)) (s.perform (.emitAll ops)).2 := by
  induction ops generalizing o s with
  | nil => simpa [Outline.note, perform, Draft.emitAll] using h
  | cons op ops ih =>
    have hnote : o.note (.emitAll (op :: ops)) = (o.note (.emit op)).note (.emitAll ops) := by
      simp [Outline.note]
    rw [hnote] at hroom ⊢
    exact ih (h.emit (Nat.lt_of_le_of_lt (Outline.drawn_le_note _ _) hroom)) hroom

theorem bind (h : Follows o s) (hk : number < o.labels) :
    Follows (o.note (.bind number)) (s.perform (.bind number)).2 := by
  obtain ⟨l, hl⟩ : ∃ l, s.labels[number]? = some l :=
    ⟨_, List.getElem?_eq_getElem (h.handed.symm ▸ hk)⟩
  have hbound : Desk.bound (o.note (.bind number)).marks = Desk.bound o.marks ++ [number] :=
    bound_append _ _
  have hall : ∀ k ∈ Desk.bound (o.note (.bind number)).marks, k < o.labels := by
    rw [hbound]
    simpa [or_imp, forall_and] using ⟨h.bound, hk⟩
  have hunbound : ∀ l', l' ∈ s.draft.unbound.filter (· ≠ l) ↔
      ∃ k, s.labels[k]? = some l' ∧ k ∉ Desk.bound (o.note (.bind number)).marks := by
    intro l'
    simp only [List.mem_filter, h.unbound, hbound, List.mem_append, List.mem_singleton, not_or,
      decide_eq_true_eq]
    constructor
    · rintro ⟨⟨k, hl', hk'⟩, hne⟩
      exact ⟨k, hl', hk', fun he ↦ hne (Option.some.inj (hl'.symm.trans (he ▸ hl)))⟩
    · rintro ⟨k, hl', hk', hne⟩
      exact ⟨⟨k, hl', hk'⟩, fun he ↦
        hne (number_unique h.carried.distinct.of_append_left hl' (he ▸ hl))⟩
  simp only [perform, hl]
  obtain ⟨hopen, hwaiting⟩ | ⟨k, lk, hopen, hlk, hwaiting⟩ := h.waiting_cases
  · simp only [Draft.bind, hwaiting]
    refine ⟨h.handed, ?_, hall, ?_, hunbound, h.locals, h.regions, h.initLocals⟩
    · simpa [Outline.note, written_bind, hopen] using h.carried
    · simp [Outline.note, open?_bind, hl]
  · have hcode := h.carried.append hlk .nop
    simp only [Draft.bind, Draft.emit, hwaiting]
    refine ⟨h.handed, ?_, hall, ?_, hunbound, h.locals, h.regions, h.initLocals⟩
    · simpa [Outline.note, written_bind, hopen] using hcode
    · simp [Outline.note, open?_bind, hl]

theorem addLocal (h : Follows o s) (type : TypeName) :
    Follows (o.note (.addLocal type)) (s.perform (.addLocal type)).2 := by
  have hlocals := h.locals
  by_cases hlt : s.draft.body.locals.length < UInt16.size
  · simp only [perform, Draft.addLocal, Body.addLocal, if_pos hlt]
    refine ⟨h.handed, h.carried.of_eq rfl rfl, h.bound, h.waiting, h.unbound, ?_, h.regions,
      h.initLocals⟩
    rw [hlocals, List.length_take] at hlt
    simp only [Outline.note, hlocals]
    rw [List.take_of_length_le (by omega), List.take_of_length_le (by simp; omega)]
  · simp only [perform, Draft.addLocal, Body.addLocal, if_neg hlt]
    refine ⟨h.handed, h.carried, h.bound, h.waiting, h.unbound, ?_, h.regions, h.initLocals⟩
    rw [hlocals, List.length_take] at hlt
    simp only [Outline.note, hlocals]
    rw [List.take_append_of_le_length (by omega)]

theorem addRegion (h : Follows o s) (z : Zone) (hz : ∀ k ∈ z.numbers, k < o.labels) :
    Follows { o with zones := o.zones ++ [z] } (s.perform
      (.addRegion z.handler z.tryStart z.tryEnd z.handlerStart z.handlerEnd)).2 := by
  have hl : ∀ k ∈ z.numbers, ∃ l, s.labels[k]? = some l := fun k hk ↦
    ⟨_, List.getElem?_eq_getElem (h.handed.symm ▸ hz k hk)⟩
  simp only [Zone.numbers, List.forall_mem_cons] at hl
  obtain ⟨⟨a, ha⟩, ⟨b, hb⟩, ⟨c, hc⟩, ⟨d, hd⟩, -⟩ := hl
  have hregion : s.region? z.handler z.tryStart z.tryEnd z.handlerStart z.handlerEnd =
      some ⟨z.handler, a, b, c, d⟩ := by
    simp [region?, ha, hb, hc, hd]
  simp only [perform, hregion]
  refine ⟨h.handed, h.carried.of_eq rfl rfl, h.bound, h.waiting, h.unbound, h.locals, ?_,
    h.initLocals⟩
  refine List.rel_append h.regions (.cons ⟨rfl, ?_⟩ .nil)
  simp [Zone.numbers, Region.boundaries, ha, hb, hc, hd]

theorem perform (h : Follows o s) (hallows : o.Allows act)
    (hroom : (o.note act).drawn < UInt32.size) : Follows (o.note act) (s.perform act).2 := by
  cases act with
  | label => exact h.label hroom
  | bind number => exact h.bind hallows
  | emit op => exact h.emit hroom
  | emitAll ops => exact h.emitAll ops hroom
  | addLocal type => exact h.addLocal type
  | addRegion handler tryStart tryEnd handlerStart handlerEnd =>
    exact h.addRegion ⟨handler, tryStart, tryEnd, handlerStart, handlerEnd⟩ hallows
  | setInitLocals value =>
    exact ⟨h.handed, h.carried.of_eq rfl rfl, h.bound, h.waiting, h.unbound, h.locals, h.regions,
      rfl⟩

end Follows

def after (s : Desk) : List Act → Desk
  | [] => s
  | act :: acts => (s.perform act).2.after acts

theorem Follows.after {o : Outline} {s : Desk} {acts : List Act} (h : Follows o s)
    (hallows : o.AllowsAll acts) (hroom : (o.after acts).drawn < UInt32.size) :
    Follows (o.after acts) (s.after acts) := by
  induction acts generalizing o s with
  | nil => exact h
  | cons act acts ih =>
    exact ih (h.perform hallows.1 (Nat.lt_of_le_of_lt (Outline.drawn_le_after _ acts) hroom))
      hallows.2 hroom

theorem follows_empty : Follows .empty .empty :=
  ⟨rfl, ⟨rfl, List.nodup_nil, nofun, .nil⟩, nofun, rfl, by simp [empty, Draft.empty], rfl, .nil, rfl⟩

end Desk

end CilSpan
