import CilSpan.Body.Bench
import CilSpan.Proofs.Body.Numbered
import CilSpan.Proofs.Body.Verdict
import CilSpan.Proofs.Layout.Tight

namespace CilSpan

namespace Bench

def draws (s : Bench) : Act → Nat
  | .create _ | .push _ => 1
  | .insert _ ops => ops.length
  | .insertAhead anchor ops => if anchor ∈ s.body.labels then ops.length + 1 else 0
  | _ => 0

def drawn (s : Bench) : List Act → Nat
  | [] => 0
  | act :: acts => s.draws act + (s.perform act).2.drawn acts

def after (s : Bench) : List Act → Bench
  | [] => s
  | act :: acts => (s.perform act).2.after acts

def spare (s : Bench) : List Label := s.made.filterMap fun made ↦ made.map Instr.label

/-- Every instruction that has been waiting is still there, or it has been handed out. -/
def Remains (made made' : List (Option Instr)) : Prop :=
  ∀ (k : Nat) (i? : Option Instr), made[k]? = some i? → made'[k]? = some i? ∨ made'[k]? = some none

namespace Remains

variable {made made' made'' : List (Option Instr)}

theorem refl (made : List (Option Instr)) : Remains made made := fun _ _ h ↦ .inl h

theorem trans (h : Remains made made') (h' : Remains made' made'') : Remains made made'' := by
  intro k i? hi
  obtain hi | hi := h k i? hi
  · exact h' k i? hi
  · exact .inr ((or_self_iff).1 (h' k none hi))

theorem set (made : List (Option Instr)) (number : Nat) :
    Remains made (made.set number none) := by
  intro k i? h
  by_cases hk : number = k
  · subst hk
    exact .inr (List.getElem?_set_self (List.getElem?_eq_some_iff.1 h).1)
  · exact .inl (by rw [List.getElem?_set_ne hk, h])

theorem append (made more : List (Option Instr)) : Remains made (made ++ more) := by
  intro k i? h
  rw [List.getElem?_append_left (List.getElem?_eq_some_iff.1 h).1]
  exact .inl h

end Remains

variable {s t u : Bench} {act : Act} {acts : List Act} {ops : List Op} {lost : List Label} {n : Nat}

/-- What an act can do to labels: it makes those for `ops`, and then they, the spare ones and the old
ones are placed anew, up to those that are lost. -/
structure Turns (s t : Bench) (ops : List Op) (lost : List Label) : Prop where
  next : t.body.next = (s.body.createAll ops).2.next
  old : s.body.labels.Sublist t.body.labels
  made : Remains s.made t.made
  perm : (lost ++ t.spare ++ t.body.labels).Perm
    ((s.body.createAll ops).1.map Instr.label ++ (s.spare ++ s.body.labels))

namespace Turns

theorem of_labels (hnext : t.body.next = s.body.next) (hlabels : t.body.labels = s.body.labels)
    (hmade : t.made = s.made) : Turns s t [] [] := by
  refine ⟨hnext, hlabels ▸ List.Sublist.refl _, hmade ▸ Remains.refl _, ?_⟩
  rw [spare, hmade, hlabels]
  exact List.Perm.refl _

/-- Nothing is taken of what has been made, and what is new gets its place in the body. -/
theorem of_body {b : Body} (hnext : b.next = (s.body.createAll ops).2.next)
    (hold : s.body.labels.Sublist b.labels) (hperm : (lost ++ b.labels).Perm
      ((s.body.createAll ops).1.map Instr.label ++ s.body.labels)) :
    Turns s { s with body := b } ops lost := by
  refine ⟨hnext, hold, Remains.refl _, List.perm_iff_count.2 fun l ↦ ?_⟩
  have hcount := List.perm_iff_count.1 hperm l
  simp only [spare, List.count_append] at hcount ⊢
  omega

end Turns

theorem take_cases (s : Bench) (number : Nat) :
    (∃ i, s.made[number]? = some (some i) ∧
      s.take number = (some i, ⟨s.body, s.made.set number none⟩)) ∨
    s.take number = (none, s) := by
  unfold take
  split
  · rename_i i hi
    exact .inl ⟨i, hi, rfl⟩
  · exact .inr rfl

/-- An instruction that is handed out is spare no more. -/
theorem perm_spare_set {number : Nat} {i : Instr} (h : s.made[number]? = some (some i)) :
    (i.label :: (Bench.mk s.body (s.made.set number none)).spare).Perm s.spare := by
  obtain ⟨hlt, hi⟩ := List.getElem?_eq_some_iff.1 h
  obtain ⟨before, rest, hmade, -, hset⟩ :
      ∃ before rest, s.made = before ++ s.made[number] :: rest ∧ before.length = number ∧
        s.made.set number none = before ++ none :: rest := List.exists_of_set hlt
  rw [hi] at hmade
  simp only [spare, hset]
  rw [hmade]
  simp only [List.filterMap_append, List.filterMap_cons, Option.map_some, Option.map_none]
  exact List.perm_middle.symm

theorem takeAll_cons {number : Nat} {numbers : List Nat} {i : Instr}
    (h : s.take number = (some i, t)) : s.takeAll (number :: numbers) =
      ((t.takeAll numbers).1.map (i :: ·), (t.takeAll numbers).2) := by
  simp only [takeAll, h]
  split <;> simp [*]

/-- Taking several leaves the body alone. What has been taken before one is missing is gone. -/
theorem takeAll_spec (s : Bench) (numbers : List Nat) : ∃ gone : List Instr,
    (s.takeAll numbers).2.body = s.body ∧ Remains s.made (s.takeAll numbers).2.made ∧
    (gone.map Instr.label ++ (s.takeAll numbers).2.spare).Perm s.spare ∧
    ∀ run, (s.takeAll numbers).1 = some run → run = gone := by
  induction numbers generalizing s with
  | nil => exact ⟨[], rfl, Remains.refl _, List.Perm.refl _, by simp [takeAll, eq_comm]⟩
  | cons number numbers ih =>
    obtain ⟨i, hi, htake⟩ | htake := s.take_cases number
    · obtain ⟨gone, hbody, hmade, hperm, hrun⟩ := ih ⟨s.body, s.made.set number none⟩
      rw [takeAll_cons htake]
      refine ⟨i :: gone, hbody, (Remains.set _ _).trans hmade,
        (hperm.cons i.label).trans (perm_spare_set hi), fun run h ↦ ?_⟩
      obtain ⟨rest, hrest, rfl⟩ := Option.map_eq_some_iff.1 h
      rw [hrun rest hrest]
    · exact ⟨[], by simp [takeAll, htake], by simp [takeAll, htake, Remains.refl],
        by simp [takeAll, htake], by simp [takeAll, htake]⟩

theorem turns_expand (s : Bench) (main : Op → Op) (behind : Op → List Op) {k : Nat}
    (hk : ∀ op, (behind op).length = k) (l : Label) : ∃ ops,
      ops.length = (if l ∈ s.body.labels then k else 0) ∧
      Turns s { s with body := s.body.expand main behind l } ops [] := by
  cases hcut : cut? l s.body.code with
  | none =>
    have hl : l ∉ s.body.labels := fun hl ↦ by
      obtain ⟨i, hi, rfl⟩ := List.mem_map.1 hl
      exact cut?_eq_none.1 hcut i hi rfl
    refine ⟨[], by rw [if_neg hl]; rfl, ?_⟩
    simp only [Body.expand, hcut]
    exact .of_labels rfl rfl rfl
  | some parts =>
    obtain ⟨before, op, after⟩ := parts
    have hcode := (cut?_eq_some.1 hcut).1
    have hl : l ∈ s.body.labels := by simp [Body.labels, hcode]
    refine ⟨behind op, by rw [hk, if_pos hl], .of_body ?_ ?_ ?_⟩
    · simp only [Body.expand, hcut]
    · exact Body.labels_expand_sublist main behind s.body l
    · simp only [Body.expand, hcut]
      refine List.perm_iff_count.2 fun j ↦ ?_
      simp only [Body.labels, hcode, List.map_append, List.map_cons, List.count_append,
        List.count_cons, List.nil_append]
      omega

theorem turns_create (s : Bench) (op : Op) : Turns s (s.perform (.create op)).2 [op] [] := by
  refine ⟨rfl, List.Sublist.refl _, Remains.append _ _, List.perm_iff_count.2 fun l ↦ ?_⟩
  simp only [perform, spare, Body.createAll, Body.create, Body.labels, List.filterMap_append,
    List.filterMap_cons, List.filterMap_nil, Option.map_some, List.map_cons, List.map_nil,
    List.nil_append, List.count_append, List.count_cons, List.count_nil]
  omega

theorem turns_push (s : Bench) (op : Op) : Turns s (s.perform (.push op)).2 [op] [] :=
  .of_body rfl ((List.sublist_append_left _ _).map _)
    (Body.perm_append { s.body with next := s.body.next + 1 } ⟨s.body.freshLabel, op⟩ [])

theorem turns_pushMade (s : Bench) (number : Nat) :
    Turns s (s.perform (.pushMade number)).2 [] [] := by
  obtain ⟨i, hi, htake⟩ | htake := s.take_cases number
  · simp only [perform, htake]
    refine ⟨rfl, (List.sublist_append_left _ _).map _, Remains.set _ _, ?_⟩
    exact (s.body.perm_append i _).trans ((perm_spare_set hi).append_right _)
  · simp only [perform, htake]
    exact .of_labels rfl rfl rfl

theorem turns_spliceMade (s : Bench) (index : Nat) (numbers : List Nat) :
    ∃ lost, Turns s (s.perform (.spliceMade index numbers)).2 [] lost := by
  obtain ⟨gone, hbody, hmade, hperm, hrun⟩ := s.takeAll_spec numbers
  have hgone : Turns s (s.takeAll numbers).2 [] (gone.map Instr.label) :=
    ⟨congrArg Body.next hbody, hbody ▸ List.Sublist.refl _, hmade,
      hbody ▸ hperm.append_right s.body.labels⟩
  cases htake : s.takeAll numbers with
  | mk taken? t =>
    rw [htake] at hgone hrun
    cases taken? with
    | none => exact ⟨_, by simpa only [perform, htake] using hgone⟩
    | some run =>
      obtain rfl := hrun run rfl
      obtain hlt | hle := Nat.lt_or_ge t.body.size index
      · exact ⟨_, by simpa only [perform, htake, Body.splice, if_neg (Nat.not_le_of_lt hlt)]
          using hgone⟩
      · simp only [perform, htake, Body.splice, if_pos hle]
        refine ⟨[], hgone.next, hgone.old.trans ((sublist_splice _ _ _).map _), hgone.made, ?_⟩
        have hplaced := (perm_labels_splice t.body.code run index).append_left t.spare
        have hall := hgone.perm
        rw [List.append_assoc] at hall
        exact hplaced.trans ((List.perm_append_comm_assoc _ _ _).trans hall)

theorem turns_insert (s : Bench) (index : Nat) (ops : List Op) :
    ∃ lost, Turns s (s.perform (.insert index ops)).2 ops lost := by
  obtain hlt | hle := Nat.lt_or_ge s.body.size index
  · simp only [perform, Body.insert_of_lt hlt]
    refine ⟨(s.body.createAll ops).1.map Instr.label, .of_body rfl (List.Sublist.refl _) ?_⟩
    exact List.Perm.refl _
  · simp only [perform, Body.insert_of_le hle]
    exact ⟨[], .of_body rfl ((sublist_splice _ _ _).map _) (perm_labels_splice _ _ _)⟩

theorem turns_addLocal (s : Bench) (type : TypeName) :
    Turns s (s.perform (.addLocal type)).2 [] [] := by
  by_cases h : s.body.locals.length < UInt16.size
  · simp only [perform, Body.addLocal, if_pos h]
    exact .of_labels rfl rfl rfl
  · simp only [perform, Body.addLocal, if_neg h]
    exact .of_labels rfl rfl rfl

theorem turns_perform (s : Bench) (act : Act) :
    ∃ ops lost, ops.length = s.draws act ∧ Turns s (s.perform act).2 ops lost := by
  cases act with
  | create op => exact ⟨[op], [], rfl, s.turns_create op⟩
  | push op => exact ⟨[op], [], rfl, s.turns_push op⟩
  | pushMade number => exact ⟨[], [], rfl, s.turns_pushMade number⟩
  | spliceMade index numbers =>
    obtain ⟨lost, h⟩ := s.turns_spliceMade index numbers
    exact ⟨[], lost, rfl, h⟩
  | insert index ops =>
    obtain ⟨lost, h⟩ := s.turns_insert index ops
    exact ⟨ops, lost, rfl, h⟩
  | insertAhead anchor ops =>
    have hk : ∀ op : Op, (ops ++ [op]).length = ops.length + 1 := fun _ ↦ by simp
    simp only [perform, Body.insertAhead_eq_expand]
    obtain ⟨made, hlen, h⟩ := s.turns_expand (fun _ ↦ .nop) (fun op ↦ ops ++ [op]) hk anchor
    exact ⟨made, [], hlen, h⟩
  | setOp l op =>
    simp only [perform, Body.setOp_eq_expand]
    obtain ⟨made, hlen, h⟩ := s.turns_expand (fun _ ↦ op) (fun _ ↦ []) (fun _ ↦ rfl) l
    exact ⟨made, [], by simpa [draws] using hlen, h⟩
  | addLocal type => exact ⟨[], [], rfl, s.turns_addLocal type⟩
  | addRegion r => exact ⟨[], [], rfl, .of_labels rfl rfl rfl⟩
  | setInitLocals value => exact ⟨[], [], rfl, .of_labels rfl rfl rfl⟩
  | lengthen => exact ⟨[], [], rfl, .of_labels rfl s.body.labels_lengthen rfl⟩
  | shorten => exact ⟨[], [], rfl, .of_labels rfl s.body.labels_shorten rfl⟩

/-- The second bench is a later state of the first. What has been placed keeps its label and its
order, what has been made keeps its label until it is handed out, and a label that is not known yet
is of those that were still to be handed out. -/
structure Continues (s t : Bench) : Prop where
  next : s.body.next ≤ t.body.next
  old : s.body.labels.Sublist t.body.labels
  made : Remains s.made t.made
  origin : ∀ l ∈ t.spare ++ t.body.labels,
    l ∈ s.spare ++ s.body.labels ∨ s.body.next ≤ l.val

namespace Continues

theorem refl (s : Bench) : Continues s s :=
  ⟨UInt32.le_refl _, List.Sublist.refl _, Remains.refl _, fun _ ↦ .inl⟩

theorem trans (h : Continues s t) (h' : Continues t u) : Continues s u := by
  refine ⟨UInt32.le_trans h.next h'.next, h.old.trans h'.old, h.made.trans h'.made, fun l hl ↦ ?_⟩
  obtain hl | hl := h'.origin l hl
  · exact h.origin l hl
  · exact .inr (UInt32.le_trans h.next hl)

end Continues

section Runs

variable (hs : s.body.Numbered n s.spare)
include hs

namespace Turns

variable (h : Turns s t ops lost) (hroom : n + ops.length < UInt32.size)
include h hroom

theorem numbered : t.body.Numbered (n + ops.length) t.spare :=
  (hs.renew ops hroom h.next h.perm).of_append

theorem continues : Continues s t := by
  have hroom' := hs.next ▸ hroom
  refine ⟨?_, h.old, h.made, fun l hl ↦ ?_⟩
  · rw [UInt32.le_iff_toNat_le, h.next, Body.toNat_next_createAll hroom']
    exact Nat.le_add_right _ _
  · have hall : l ∈ (s.body.createAll ops).1.map Instr.label ++ (s.spare ++ s.body.labels) :=
      h.perm.subset (by rw [List.append_assoc]; exact List.mem_append_right _ hl)
    obtain hnew | hold := List.mem_append.1 hall
    · exact .inr (UInt32.le_iff_toNat_le.2 (Body.bounds_createAll hroom' l hnew).1)
    · exact .inl hold

end Turns

theorem numbered_perform (hroom : n + s.draws act < UInt32.size) :
    (s.perform act).2.body.Numbered (n + s.draws act) (s.perform act).2.spare := by
  obtain ⟨ops, lost, hlen, h⟩ := s.turns_perform act
  rw [← hlen] at hroom ⊢
  exact h.numbered hs hroom

theorem continues_perform (hroom : n + s.draws act < UInt32.size) :
    Continues s (s.perform act).2 := by
  obtain ⟨ops, lost, hlen, h⟩ := s.turns_perform act
  exact h.continues hs (hlen ▸ hroom)

theorem numbered_after (acts : List Act) (hroom : n + s.drawn acts < UInt32.size) :
    (s.after acts).body.Numbered (n + s.drawn acts) (s.after acts).spare := by
  induction acts generalizing s n with
  | nil => exact hs
  | cons act acts ih =>
    rw [drawn, ← Nat.add_assoc] at hroom ⊢
    exact ih (numbered_perform hs (by omega)) hroom

theorem continues_after (acts : List Act) (hroom : n + s.drawn acts < UInt32.size) :
    Continues s (s.after acts) := by
  induction acts generalizing s n with
  | nil => exact .refl s
  | cons act acts ih =>
    rw [drawn, ← Nat.add_assoc] at hroom
    have hfirst : n + s.draws act < UInt32.size := by omega
    exact (continues_perform hs hfirst).trans (ih (numbered_perform hs hfirst) hroom)

end Runs

theorem drawn_append (s : Bench) (acts later : List Act) :
    s.drawn (acts ++ later) = s.drawn acts + (s.after acts).drawn later := by
  induction acts generalizing s with
  | nil => exact (Nat.zero_add _).symm
  | cons act acts ih => rw [List.cons_append, drawn, ih, drawn, after, Nat.add_assoc]

end Bench

namespace Body

def Agrees (b : Body) (l : Label) : Prop :=
  (l ∉ b.labels ∧ b.position? l = none ∧ b.find? l = none ∧ offset? l b.offsets = none) ∨
  ∃ n i, b.code[n]? = some i ∧ i.label = l ∧ b.position? l = some n ∧ b.find? l = some i ∧
    offset? l b.offsets = some (byteAt b.code n)

theorem agrees {b : Body} (hb : b.labels.Nodup) (l : Label) : b.Agrees l := by
  by_cases hl : l ∈ b.labels
  · obtain ⟨i, hi, rfl⟩ := List.mem_map.1 hl
    obtain ⟨n, hn⟩ := List.getElem?_of_mem hi
    exact .inr ⟨n, i, hn, rfl, position?_of_getElem? hb hn, find?_of_getElem? hb hn,
      offset?_of_getElem? hb hn⟩
  · have hne : ∀ i ∈ b.code, i.label ≠ l := fun i hi he ↦ hl (he ▸ List.mem_map_of_mem hi)
    exact .inl ⟨hl, by simpa [position?] using hne, by simpa [find?] using hne,
      offset?_eq_none hl⟩

end Body

namespace Bench

theorem body_after_creates (s : Bench) (op : Op) (n : Nat) :
    (s.after (.replicate n (.create op))).body =
      { s.body with next := s.body.next + .ofNat n } := by
  induction n generalizing s with
  | zero => simp [after]
  | succ n ih =>
    rw [List.replicate_succ, after, ih]
    simp only [perform, Body.create, Body.mk.injEq, true_and]
    rw [Nat.add_comm n 1, UInt32.ofNat_add, ← UInt32.add_assoc]
    rfl

theorem body_of_spent :
    ((start .empty).after (.push .nop :: .replicate (UInt32.size - 2) (.create .nop))).body =
      ⟨[⟨⟨0⟩, .nop⟩], [], [], false, 4294967295⟩ := by
  rw [after, body_after_creates]
  rfl

theorem repeats_label_of_body {s : Bench}
    (hs : s.body = ⟨[⟨⟨0⟩, .nop⟩], [], [], false, 4294967295⟩) :
    let t := s.after [.create .nop, .push .ret]
    s.body.next = 4294967295 ∧ t.body.next = 1 ∧ t.body.labels = [⟨0⟩, ⟨0⟩] ∧
      t.body.flaw? = some (.repeatedLabel ⟨0⟩) := by
  intro t
  have ht : t.body = ((s.body.create .nop).2.push .ret).2 := rfl
  rw [ht, hs]
  decide

end Bench

end CilSpan
