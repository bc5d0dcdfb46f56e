import CilSpan.Proofs.Body.Expand
import CilSpan.Proofs.Machine.Width
import CilSpan.Span.Refusal

namespace CilSpan

namespace Edit

variable {α β : Type} {b c : Body} {hooks : Hooks} {e : Refusal} {ops : List Op} {index count : Nat}

theorem bind_eq_ok {x : Edit α} {f : α → Edit β} {v : β} (h : (x >>= f) b = .ok v c) :
    ∃ a d, x b = .ok a d ∧ f a d = .ok v c := by
  simp only [bind, EStateM.bind] at h
  cases hx : x b with
  | ok a d => exact ⟨a, d, rfl, by simpa only [hx] using h⟩
  | error e d => exact nomatch hx ▸ h

theorem bind_of_ok {x : Edit α} {f : α → Edit β} {a : α} (h : x b = .ok a c) :
    (x >>= f) b = f a c := by
  simp only [bind, EStateM.bind, h]

theorem bind_of_error {x : Edit α} {f : α → Edit β} (h : x b = .error e c) :
    (x >>= f) b = .error e c := by
  simp only [bind, EStateM.bind, h]

theorem get_bind {f : Body → Edit β} : ((get : Edit Body) >>= f) b = f b b := rfl

theorem modify_bind {g : Body → Body} {f : Unit → Edit β} :
    ((modify g : Edit Unit) >>= f) b = f () (g b) := rfl

theorem create_bind {op : Op} {f : Instr → Edit β} :
    (create op >>= f) b = f ⟨b.freshLabel, op⟩ { b with next := b.next + 1 } := rfl

theorem enter_eq_ok (h : enter hooks b = .ok () c) :
    c = b ∧ b.code ≠ [] ∧ b.hooked? hooks = none := by
  unfold enter at h
  split at h
  · cases h
  · rename_i he
    split at h
    · cases h
    · rename_i hk
      injection h with _ h
      exact ⟨h.symm, by simpa using he, hk⟩

theorem flaw?_finished (b : Body) : { b with initLocals := true }.shorten.flaw? = b.flaw? := by
  have hinit : { b with initLocals := true }.flaw? = b.flaw? := rfl
  rw [← hinit, ← Body.flaw?_lengthen, Body.lengthen_shorten, Body.flaw?_lengthen]

theorem finish_eq (b : Body) : finish b =
    match b.flaw? with
    | some flaw => .error (.invalid flaw) { b with initLocals := true }.shorten
    | none => .ok () { b with initLocals := true }.shorten := by
  cases hb : b.flaw? <;> simp only [finish, flaw?_finished, hb]

theorem finish_eq_ok (h : finish b = .ok () c) :
    c.lengthen = { b with initLocals := true }.lengthen ∧ c.flaw? = none := by
  rw [finish_eq] at h
  split at h
  · cases h
  · rename_i hf
    injection h with _ h
    exact ⟨h ▸ Body.lengthen_shorten _, h ▸ (flaw?_finished b).trans hf⟩

theorem insert_of_le (h : index ≤ b.size) (ops : List Op) :
    Edit.insert index ops b = .ok () { b with
      code := b.code.take index ++ (b.createAll ops).1 ++ b.code.drop index
      next := (b.createAll ops).2.next } := by
  simp only [Edit.insert, Body.insert_of_le h]

theorem exists_insert (h : index ≤ b.size) (ops : List Op) :
    ∃ c, Edit.insert index ops b = .ok () c := ⟨_, insert_of_le h ops⟩

theorem exists_insertBeforeLast (h : count ≤ b.size) (ops : List Op) :
    ∃ c, insertBeforeLast count ops b = .ok () c := by
  simp only [insertBeforeLast, if_pos h]
  exact exists_insert (Nat.sub_le _ _) ops

theorem insert_eq_ok (h : Edit.insert index ops b = .ok () c) :
    c = { b with
      code := b.code.take index ++ (b.createAll ops).1 ++ b.code.drop index
      next := (b.createAll ops).2.next } := by
  obtain hi | hi := Nat.lt_or_ge b.size index
  · simp only [Edit.insert, Body.insert_of_lt hi] at h
    cases h
  · rw [insert_of_le hi] at h
    injection h with _ h
    exact h.symm

theorem insertBeforeLast_eq_ok {front last : List Instr}
    (hb : b.code = front ++ last) (hl : count = last.length)
    (h : insertBeforeLast count ops b = .ok () c) :
    c = { b with
      code := front ++ (b.createAll ops).1 ++ last
      next := (b.createAll ops).2.next } := by
  have hs : b.size = front.length + last.length := by simp [Body.size, hb]
  simp only [insertBeforeLast, hs, hl, Nat.le_add_left, if_true, Nat.add_sub_cancel] at h
  simpa only [hb, List.take_left, List.drop_left] using insert_eq_ok h

theorem labelAt_eq_ok {l : Label} (h : labelAt index b = .ok l c) :
    c = b ∧ ∃ i, b.code[index]? = some i ∧ l = i.label := by
  unfold labelAt at h
  split at h
  · rename_i i hi
    injection h with h h'
    exact ⟨h'.symm, i, hi, h.symm⟩
  · cases h

theorem addLocal_eq_ok {type : TypeName} {slot : UInt16} (h : addLocal type b = .ok slot c) :
    slot.toNat = b.locals.length ∧ c = { b with locals := b.locals ++ [type] } := by
  simp only [addLocal, Body.addLocal] at h
  by_cases hs : b.locals.length < UInt16.size
  · simp only [hs, if_true] at h
    injection h with h h'
    exact ⟨h ▸ UInt16.toNat_ofNat_of_lt hs, h'.symm⟩
  · simp only [hs, if_false] at h
    cases h

end Edit

theorem sublist_splice {α : Type} (xs run : List α) (n : Nat) :
    xs.Sublist (xs.take n ++ run ++ xs.drop n) := by
  conv_lhs => rw [← List.take_append_drop n xs]
  exact (List.sublist_append_left _ _).append (List.Sublist.refl _)

theorem perm_labels_splice (code run : List Instr) (n : Nat) :
    ((code.take n ++ run ++ code.drop n).map Instr.label).Perm
      (run.map Instr.label ++ code.map Instr.label) := by
  conv_rhs => rw [← List.take_append_drop n code, ← List.map_append, ← List.append_assoc]
  exact (List.perm_append_comm.append_right _).map _

theorem Edit.labels_sublist_of_insert {index : Nat} {ops : List Op} {b c : Body}
    (h : insert index ops b = .ok () c) : b.labels.Sublist c.labels := by
  rw [insert_eq_ok h]
  exact (sublist_splice b.code _ index).map _

theorem Body.hooked?_lengthen (b : Body) (hooks : Hooks) :
    b.lengthen.hooked? hooks = b.hooked? hooks := by
  have hcalls : b.lengthen.calls = b.calls := by
    funext callee
    simp only [calls, lengthen, List.any_map, Function.comp_def, Op.callee?_lengthen]
  rw [hooked?, hooked?, hcalls]

theorem hook?_on (tracer : TypeName) (hook : Hook) :
    (Hooks.on tracer).hook? ((Hooks.on tracer).get hook) = some hook := by
  cases hook <;>
    simp [Hooks.hook?, Hook.all, Hooks.get, Hooks.on, Hook.callee, Callee.static, Hook.name]

theorem hook?_eq_none_of_hooked? {b : Body} {hooks : Hooks} (h : b.hooked? hooks = none)
    {i : Instr} (hi : i ∈ b.code) {callee : Callee} (hc : i.op.callee? = some callee) :
    hooks.hook? callee = none := by
  apply List.find?_eq_none.2
  intro hook hm he
  have hn := List.find?_eq_none.1 h (hooks.get hook) (List.mem_map_of_mem hm)
  refine hn (List.any_eq_true.2 ⟨i, hi, ?_⟩)
  simpa [hc] using he

end CilSpan
