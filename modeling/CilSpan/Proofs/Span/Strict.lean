import CilSpan.Proofs.Layout.Tight
import CilSpan.Proofs.Span.Refusals

namespace CilSpan

/-- Why a strict edit stops: it is refused, or it reaches for something that is not there. -/
inductive Stop
  | refused (reason : Refusal)
  | lost
deriving DecidableEq, Repr

abbrev Strict := EStateM Stop Body

variable {α β : Type}

def Edit.strict (x : Edit α) : Strict α := fun b ↦
  match x b with
  | .ok a b => .ok a b
  | .error e b => .error (.refused e) b

namespace Strict

def need (x : Option α) : Strict α := fun b ↦
  match x with
  | some a => .ok a b
  | none => .error .lost b

def createAll (ops : List Op) : Strict (List Instr) := fun b ↦
  let (run, b) := b.createAll ops
  .ok run b

def splice (index : Nat) (run : List Instr) : Strict Unit := fun b ↦
  match b.splice index run with
  | .ok b => .ok () b
  | .error _ => .error .lost b

def insert (index : Nat) (ops : List Op) : Strict (List Label) := do
  let run ← createAll ops
  splice index run
  return run.map Instr.label

def insertAfter (l : Label) (ops : List Op) : Strict Unit := do
  match (← get).position? l with
  | none => return ()
  | some position => let _ ← insert (position + 1) ops

def insertAhead (anchor : Label) (ops : List Op) : Strict (Option Label) := do
  let b ← get
  match b.position? anchor with
  | none => return none
  | some position =>
    let i ← need b.code[position]?
    set { b with code := b.code.set position { i with op := .nop } }
    let run ← createAll ops
    let moved ← (Edit.create i.op).strict
    splice (position + 1) (run ++ [moved])
    return some moved.label

/-- Judges the branch at a position by the offsets in the table, and answers whether it was made
short. A branch has an offset of its own; that its target has one is not certain. -/
def shrinkAt (table : List (Label × Nat)) (position : Nat) : Strict Bool := do
  let i ← need (← get).code[position]?
  match i.op with
  | .branch jump .long target =>
    match offset? target table with
    | none => return false
    | some place =>
      let own ← need (offset? i.label table)
      if fitsByte (shortReach own place) then
        modify fun b ↦
          { b with code := b.code.set position { i with op := .branch jump .short target } }
        return true
      else return false
  | _ => return false

def shrinkPass : Strict Bool := do
  let b ← get
  let changes ← (List.range b.size).mapM (shrinkAt b.offsets)
  return changes.any id

variable {b c : Body} {x : Edit α} {f : α → Edit β} {y : Strict α} {g : α → Strict β} {a : α}
  {e : Stop}

theorem bind_of_ok (h : y b = .ok a c) : (y >>= g) b = g a c := by
  simp only [bind, EStateM.bind, h]

theorem bind_of_error (h : y b = .error e c) : (y >>= g) b = .error e c := by
  simp only [bind, EStateM.bind, h]

theorem get_bind {g : Body → Strict β} : ((get : Strict Body) >>= g) b = g b b := rfl

theorem set_bind {g : Unit → Strict β} : ((set c : Strict PUnit) >>= g) b = g () c := rfl

theorem modify_bind {m : Body → Body} {g : Unit → Strict β} :
    ((modify m : Strict Unit) >>= g) b = g () (m b) := rfl

theorem createAll_bind {ops : List Op} {g : List Instr → Strict β} :
    (createAll ops >>= g) b = g (b.createAll ops).1 (b.createAll ops).2 := rfl

theorem create_bind {op : Op} {g : Instr → Strict β} :
    ((Edit.create op).strict >>= g) b = g ⟨b.freshLabel, op⟩ { b with next := b.next + 1 } := rfl

theorem need_bind {o : Option α} (h : o = some a) : (need o >>= g) b = g a b :=
  bind_of_ok (by simp only [need, h])

theorem splice_of_le {index : Nat} (h : index ≤ b.size) (run : List Instr) : splice index run b =
    .ok () { b with code := b.code.take index ++ run ++ b.code.drop index } := by
  simp only [splice, Body.splice, if_pos h]

theorem insert_of_le {index : Nat} (h : index ≤ b.size) (ops : List Op) :
    insert index ops b = .ok ((b.createAll ops).1.map Instr.label) { b with
      code := b.code.take index ++ (b.createAll ops).1 ++ b.code.drop index
      next := (b.createAll ops).2.next } := by
  have hsize : index ≤ (b.createAll ops).2.size := (b.size_createAll ops).symm ▸ h
  rw [insert, createAll_bind, bind_of_ok (splice_of_le hsize _), Body.createAll_eq]
  rfl

/-- At a place that is there, both ways of insertion do the same. -/
theorem exists_insert {index : Nat} (h : index ≤ b.size) (ops : List Op) :
    ∃ c, Edit.insert index ops b = .ok () c ∧ c.size = b.size + ops.length ∧
      insert index ops b = .ok ((b.createAll ops).1.map Instr.label) c := by
  obtain ⟨c, hc⟩ := Edit.exists_insert h ops
  have hops := congrArg List.length (b.map_op_createAll ops)
  rw [List.length_map] at hops
  rw [insert_of_le h, ← Edit.insert_eq_ok hc]
  refine ⟨c, hc, ?_, rfl⟩
  rw [Edit.insert_eq_ok hc]
  simp only [Body.size, List.length_append, List.length_take, List.length_drop, hops] at h ⊢
  omega

section

variable {front rest : List Instr} {i : Instr} (hb : b.code = front ++ i :: rest)
include hb

theorem getElem?_between : b.code[front.length]? = some i := by
  rw [hb, List.getElem?_append_right (Nat.le_refl _), Nat.sub_self]
  rfl

theorem set_between (j : Instr) : b.code.set front.length j = front ++ j :: rest := by
  rw [hb, List.set_append_right _ _ (Nat.le_refl _), Nat.sub_self]
  rfl

theorem splice_behind (run : List Instr) :
    splice (front.length + 1) run b = .ok () { b with code := front ++ i :: run ++ rest } := by
  have hle : front.length + 1 ≤ b.size := by
    simp only [Body.size, hb, List.length_append, List.length_cons]
    omega
  have htake : b.code.take (front.length + 1) = front ++ [i] := by
    rw [hb, List.append_cons]
    exact List.take_left' List.length_append
  have hdrop : b.code.drop (front.length + 1) = rest := by
    rw [hb, List.append_cons]
    exact List.drop_left' List.length_append
  rw [splice_of_le hle, htake, hdrop, ← List.append_cons]

end

section

variable {l : Label} {op : Op} {before after : List Instr}

theorem position?_of_cut? (h : cut? l b.code = some (before, op, after)) :
    b.position? l = some before.length := by
  obtain ⟨hcode, hbefore⟩ := cut?_eq_some.1 h
  rw [Body.position?, hcode, List.findIdx?_append, List.findIdx?_eq_none_iff.2 fun i hi ↦
    decide_eq_false (hbefore i hi)]
  simp [List.findIdx?_cons]

theorem position?_of_no_cut (h : cut? l b.code = none) : b.position? l = none :=
  List.findIdx?_eq_none_iff.2 fun i hi ↦ decide_eq_false (cut?_eq_none.1 h i hi)

theorem insertAfter_eq (b : Body) (l : Label) (ops : List Op) :
    insertAfter l ops b = .ok () (b.insertAfter l ops) := by
  rw [insertAfter, get_bind]
  cases h : cut? l b.code with
  | none =>
    simp only [position?_of_no_cut h, Body.insertAfter, h]
    rfl
  | some parts =>
    obtain ⟨before, op, after⟩ := parts
    have hcode : (b.createAll ops).2.code = before ++ ⟨l, op⟩ :: after := by
      rw [Body.createAll_eq, (cut?_eq_some.1 h).1]
    have hinsert : insert (before.length + 1) ops b =
        .ok ((b.createAll ops).1.map Instr.label) (b.insertAfter l ops) := by
      rw [insert, createAll_bind, bind_of_ok (splice_behind hcode _)]
      simp only [Body.insertAfter, h]
      rfl
    simp only [position?_of_cut? h]
    rw [bind_of_ok hinsert]
    rfl

theorem insertAhead_eq (b : Body) (l : Label) (ops : List Op) :
    insertAhead l ops b = .ok (b.insertAhead l ops).1 (b.insertAhead l ops).2 := by
  rw [insertAhead, get_bind]
  cases h : cut? l b.code with
  | none =>
    simp only [position?_of_no_cut h, Body.insertAhead, h]
    rfl
  | some parts =>
    obtain ⟨before, op, after⟩ := parts
    have hcode := (cut?_eq_some.1 h).1
    let c : Body := { b with code := before ++ ⟨l, .nop⟩ :: after }
    let d : Body := { (c.createAll ops).2 with next := (c.createAll ops).2.next + 1 }
    have hd : d.code = before ++ ⟨l, .nop⟩ :: after := by
      simp only [d, c, Body.createAll_eq]
    have hrun : (c.createAll ops).1 = (b.createAll ops).1 :=
      Body.createAll_congr (b := c) (c := b) rfl ops
    simp only [position?_of_cut? h, Body.insertAhead, h]
    rw [need_bind (getElem?_between hcode), set_bind, set_between hcode, createAll_bind,
      create_bind, bind_of_ok (splice_behind hd _)]
    simp [d, c, hrun, Body.createAll_eq, Body.create, Body.freshLabel, pure, EStateM.pure]

end

/-- Every instruction of the code has an offset, also if its label is there twice. -/
theorem exists_offset? {code : List Instr} {i : Instr} (h : i ∈ code) (start : Nat) :
    ∃ n, offset? i.label (offsetsFrom start code) = some n := by
  induction code generalizing start with
  | nil => cases h
  | cons k code ih =>
    simp only [offsetsFrom, offset?]
    cases ho : offset? i.label (offsetsFrom (start + k.op.size) code) with
    | some n => exact ⟨n, rfl⟩
    | none =>
      obtain rfl | h := List.mem_cons.1 h
      · exact ⟨start, if_pos rfl⟩
      · obtain ⟨n, hn⟩ := ih h (start + k.op.size)
        cases ho.symm.trans hn

section

variable {table : List (Label × Nat)} {front rest : List Instr} {i : Instr} {own : Nat}

theorem shrinkAt_eq (hown : offset? i.label table = some own) (hb : b.code = front ++ i :: rest) :
    shrinkAt table front.length b = .ok (decide (shrink table i ≠ i))
      { b with code := front ++ shrink table i :: rest } := by
  have hkeep (h : shrink table i = i) : (pure false : Strict Bool) b =
      .ok (decide (shrink table i ≠ i)) { b with code := front ++ shrink table i :: rest } := by
    rw [h, ← hb]
    simp [pure, EStateM.pure]
  rw [shrinkAt, get_bind, need_bind (getElem?_between hb)]
  obtain ⟨l, op⟩ := i
  cases op with
  | branch jump width target =>
    cases width with
    | short => exact hkeep rfl
    | long =>
      dsimp only at hown ⊢
      cases hplace : offset? target table with
      | none => exact hkeep (by simp only [shrink, inReach, hplace, Bool.false_eq_true, if_false])
      | some place =>
        dsimp only
        rw [need_bind hown]
        by_cases hfit : fitsByte (shortReach own place) = true
        · have hshrink : shrink table ⟨l, .branch jump .long target⟩ =
              ⟨l, .branch jump .short target⟩ := by
            simp only [shrink, inReach, hplace, hown, hfit, if_true]
          rw [if_pos hfit, modify_bind, set_between hb, hshrink]
          simp [pure, EStateM.pure]
        · rw [if_neg hfit]
          exact hkeep (by simp only [shrink, inReach, hplace, hown, hfit]; rfl)
  | _ => exact hkeep rfl

theorem mapM_shrinkAt (front : List Instr) (h : ∀ i ∈ rest, ∃ n, offset? i.label table = some n)
    (hb : b.code = front ++ rest) :
    (List.range' front.length rest.length).mapM (shrinkAt table) b =
      .ok (rest.map fun i ↦ decide (shrink table i ≠ i))
        { b with code := front ++ rest.map (shrink table) } := by
  induction rest generalizing front b with
  | nil =>
    have hsame : b = { b with code := front ++ [].map (shrink table) } := by
      rw [List.map_nil, ← hb]
    exact congrArg (EStateM.Result.ok []) hsame
  | cons i rest ih =>
    obtain ⟨hown, hrest⟩ := List.forall_mem_cons.1 h
    obtain ⟨own, hown⟩ := hown
    have hnext := ih (b := { b with code := front ++ shrink table i :: rest })
      (front ++ [shrink table i]) hrest (List.append_cons _ _ _)
    rw [List.length_append, List.length_singleton] at hnext
    rw [List.length_cons, List.range'_succ, List.mapM_cons, bind_of_ok (shrinkAt_eq hown hb),
      bind_of_ok hnext]
    simp [pure, EStateM.pure]

end

theorem map_shrink_eq_self_iff {code : List Instr} : CilSpan.shrinkPass code = code ↔
    ∀ i ∈ code, shrink (offsetsFrom 0 code) i = i := by
  have h := List.map_inj_left (l := code) (f := shrink (offsetsFrom 0 code)) (g := id)
  rwa [List.map_id] at h

/-- A pass by positions is the pass over the code, and its answer is right. -/
theorem shrinkPass_eq (b : Body) : shrinkPass b = .ok
    (decide (CilSpan.shrinkPass b.code ≠ b.code)) { b with code := CilSpan.shrinkPass b.code } := by
  have hall : ∀ i ∈ b.code, ∃ n, offset? i.label b.offsets = some n := fun i hi ↦
    exists_offset? hi 0
  have hrun := mapM_shrinkAt [] hall rfl
  rw [List.nil_append, List.length_nil, ← List.range_eq_range'] at hrun
  have hany : ((b.code.map fun i ↦ decide (shrink b.offsets i ≠ i)).any id) =
      decide (CilSpan.shrinkPass b.code ≠ b.code) := by
    rw [Bool.eq_iff_iff, decide_eq_true_iff, ne_eq, map_shrink_eq_self_iff]
    simp only [List.any_map, List.any_eq_true, Function.comp_apply, id_eq, decide_eq_true_iff,
      not_forall, exists_prop]
    rfl
  rw [shrinkPass, get_bind, Body.size, bind_of_ok hrun, hany]
  rfl

theorem longCount_lt_of_shrinkPass (h : shrinkPass b = .ok true c) :
    longCount c.code < longCount b.code := by
  rw [shrinkPass_eq] at h
  obtain ⟨hne, rfl⟩ := EStateM.Result.ok.inj h
  exact longCount_shrinkPass_lt (of_decide_eq_true hne)

/-- Passes until one changes nothing. Nothing counts them: they come to an end because each of them
but the last makes a long branch short. -/
def shorten (b : Body) : EStateM.Result Stop Body Unit :=
  match _h : shrinkPass b with
  | .ok true c => shorten c
  | .ok false c => .ok () c
  | .error e c => .error e c
termination_by longCount b.code
decreasing_by exact longCount_lt_of_shrinkPass _h

/-- From `b` to `c` it takes `n` passes, the last of which changes nothing. -/
inductive Passes : Nat → Body → Body → Prop
  | last {b c : Body} : shrinkPass b = .ok false c → Passes 1 b c
  | again {n : Nat} {b c d : Body} : shrinkPass b = .ok true c → Passes n c d → Passes (n + 1) b d

theorem Passes.shorten_eq {n : Nat} (h : Passes n b c) : shorten b = .ok () c := by
  induction h with
  | last h =>
    rw [shorten]
    split
    · cases h.symm.trans ‹_›
    · cases h.symm.trans ‹_›
      rfl
    · cases h.symm.trans ‹_›
  | again h _ ih =>
    rw [shorten]
    split
    · cases h.symm.trans ‹_›
      exact ih
    · cases h.symm.trans ‹_›
    · cases h.symm.trans ‹_›

/-- At most as many passes change something as there are long branches. -/
theorem exists_passes (b : Body) : ∃ n, n ≤ longCount b.code + 1 ∧ Passes n b b.shorten := by
  induction b using shorten.induct with
  | case1 b c h ih =>
    have hpass := h
    rw [shrinkPass_eq] at h
    obtain ⟨hne, rfl⟩ := EStateM.Result.ok.inj h
    have hne := of_decide_eq_true hne
    have hfewer := longCount_shrinkPass_lt hne
    obtain ⟨k, hk⟩ := Nat.exists_eq_add_of_le' (show 1 ≤ longCount b.code by omega)
    have hsame : b.shorten = Body.shorten { b with code := CilSpan.shrinkPass b.code } := by
      simp only [Body.shorten, hk, shrinkPasses, if_neg hne]
      rw [shrinkPasses_eq_of_le (Nat.le_refl _) (show longCount _ ≤ k by omega)]
    obtain ⟨n, hn, hpasses⟩ := ih
    exact ⟨n + 1, by dsimp only at hn; omega, hsame ▸ .again hpass hpasses⟩
  | case2 b c h =>
    have hpass := h
    rw [shrinkPass_eq] at h
    obtain ⟨heq, rfl⟩ := EStateM.Result.ok.inj h
    have hfix : CilSpan.shrinkPass b.code = b.code := by simpa using heq
    have hsame : b.shorten = { b with code := CilSpan.shrinkPass b.code } := by
      rw [Body.shorten, shrinkPasses_of_fixed hfix, hfix]
    exact ⟨1, Nat.le_add_left _ _, hsame ▸ .last hpass⟩
  | case3 b e c h =>
    rw [shrinkPass_eq] at h
    cases h

theorem shorten_eq (b : Body) : shorten b = .ok () b.shorten := by
  obtain ⟨n, -, hn⟩ := exists_passes b
  exact hn.shorten_eq

def finish : Strict Unit := do
  modify fun b ↦ { b with initLocals := true }
  shorten
  match (← get).flaw? with
  | some flaw => throw (.refused (.invalid flaw))
  | none => return ()

theorem finish_eq (b : Body) : finish b = Edit.finish.strict b := by
  rw [finish, modify_bind, bind_of_ok (shorten_eq _), get_bind]
  simp only [Edit.strict, Edit.finish]
  cases Body.flaw? _ <;> rfl

end Strict

end CilSpan
