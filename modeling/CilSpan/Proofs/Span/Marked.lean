import CilSpan.Proofs.Span.BracketForm
import CilSpan.Proofs.Span.CorrelateForm

namespace CilSpan

theorem Hooks.get_mem_all (hooks : Hooks) (hook : Hook) : hooks.get hook ∈ hooks.all :=
  List.mem_map_of_mem (by cases hook <;> decide)

def Body.effort (b : Body) : Nat := (b.code.filter fun i ↦ i.op ≠ .nop).length

/-- The loading of the number and the name stands right in front of every call of the routine. -/
def Carries (callee : Callee) (id : Int32) (name : String) (ops : List Op) : Prop :=
  ∀ front op rest, ops = front ++ op :: rest → op.callee? = some callee →
    [.ldc id, .ldstr name] <:+ front

namespace Carries

variable {callee : Callee} {id : Int32} {name : String} {ops ops' : List Op}

theorem of_not_calls (h : ∀ op ∈ ops, op.callee? ≠ some callee) : Carries callee id name ops := by
  rintro front op rest rfl hc
  exact absurd hc (h op (by simp))

theorem append (h : Carries callee id name ops) (h' : Carries callee id name ops') :
    Carries callee id name (ops ++ ops') := by
  intro front op rest he hc
  obtain ⟨mid, rfl, hmid⟩ | ⟨mid, rfl, hmid⟩ := List.append_eq_append_iff.1 he
  · exact (h' mid op rest hmid hc).trans (List.suffix_append _ _)
  · cases mid with
    | nil => exact absurd (h' [] op rest (by simpa using hmid.symm) hc) (by simp)
    | cons op' mid =>
      obtain ⟨rfl, rfl⟩ := List.cons.inj hmid
      exact h front op mid rfl hc

theorem flatMap {α : Type} {f : α → List Op} {xs : List α}
    (h : ∀ x ∈ xs, Carries callee id name (f x)) : Carries callee id name (xs.flatMap f) := by
  induction xs with
  | nil => exact of_not_calls nofun
  | cons x xs ih =>
    obtain ⟨hx, hxs⟩ := List.forall_mem_cons.1 h
    rw [List.flatMap_cons]
    exact hx.append (ih hxs)

theorem correlatedCall (hook : Callee) : Carries callee id name (correlatedCall id name hook) := by
  intro front op rest he hc
  rcases front with _ | ⟨op₁, _ | ⟨op₂, _ | ⟨op₃, front⟩⟩⟩
  · obtain ⟨rfl, -⟩ := List.cons.inj he
    cases hc
  · obtain ⟨-, he⟩ := List.cons.inj he
    obtain ⟨rfl, -⟩ := List.cons.inj he
    cases hc
  · obtain ⟨h₁, he⟩ := List.cons.inj he
    obtain ⟨h₂, -⟩ := List.cons.inj he
    exact h₁ ▸ h₂ ▸ List.suffix_refl _
  · simp [CilSpan.correlatedCall] at he

theorem lengthen_iff :
    Carries callee id name (ops.map Op.lengthen) ↔ Carries callee id name ops := by
  constructor
  · rintro h front op rest rfl hc
    obtain ⟨before, he⟩ := h (front.map Op.lengthen) op.lengthen (rest.map Op.lengthen) (by simp)
      (by rwa [Op.callee?_lengthen])
    obtain ⟨front, run, rfl, -, hrun⟩ := List.map_eq_append_iff.1 he.symm
    obtain ⟨op₁, run, rfl, h₁, hrun⟩ := List.map_eq_cons_iff.1 hrun
    obtain ⟨op₂, run, rfl, h₂, hrun⟩ := List.map_eq_cons_iff.1 hrun
    obtain rfl := List.map_eq_nil_iff.1 hrun
    cases op₁ <;> cases h₁
    cases op₂ <;> cases h₂
    exact List.suffix_append _ _
  · intro h front op rest he hc
    obtain ⟨front, back, rfl, rfl, hback⟩ := List.map_eq_append_iff.1 he
    obtain ⟨op, rest, rfl, rfl, rfl⟩ := List.map_eq_cons_iff.1 hback
    exact (h front op rest rfl (by rwa [← Op.callee?_lengthen])).map Op.lengthen

end Carries

namespace Body

variable {b c : Body} {hooks : Hooks} {hook callee : Callee}

theorem effort_lengthen (b : Body) : b.lengthen.effort = b.effort := by
  have hnop (op : Op) : op.lengthen = .nop ↔ op = .nop := by
    cases op <;> simp [Op.lengthen, Op.withWidth]
  simp only [effort, lengthen, List.filter_map, List.length_map, Function.comp_def, ne_eq, hnop]

theorem effort_le_of_sublist {run : List Instr} (h : run.Sublist b.code) :
    (run.filter fun i ↦ i.op ≠ .nop).length ≤ b.effort :=
  (h.filter _).length_le

theorem callee?_ne_of_hooked? (h : b.hooked? hooks = none) (hc : callee ∈ hooks.all) :
    ∀ i ∈ b.code, i.op.callee? ≠ some callee := by
  intro i hi he
  exact List.find?_eq_none.1 h callee hc (List.any_eq_true.2 ⟨i, hi, by simpa using he⟩)

theorem exists_hooked? (hc : callee ∈ hooks.all) {i : Instr} (hi : i ∈ b.code)
    (he : i.op.callee? = some callee) : ∃ hook, b.hooked? hooks = some hook := by
  refine Option.ne_none_iff_exists'.1 fun hnone ↦ ?_
  exact callee?_ne_of_hooked? hnone hc i hi he

theorem hooked?_of_lengthen_eq (h : b.lengthen = c.lengthen) :
    b.hooked? hooks = c.hooked? hooks := by
  rw [← hooked?_lengthen, h, hooked?_lengthen]

theorem exists_call_of_lengthen_eq (h : b.lengthen = c.lengthen)
    (hc : .call callee ∈ c.code.map Instr.op) : .call callee ∈ b.code.map Instr.op := by
  have hop {op : Op} : op.lengthen = .call callee ↔ op = .call callee := by
    cases op <;> simp [Op.lengthen, Op.withWidth]
  have hmem (d : Body) : .call callee ∈ d.lengthen.code.map Instr.op ↔
      .call callee ∈ d.code.map Instr.op := by
    simp [lengthen, hop]
  rwa [← hmem, h, hmem]

theorem enter_of_hooked? (h : b.hooked? hooks = some hook) :
    Edit.enter hooks b = .error (.alreadyHooked hook.name) b := by
  have hcalls : b.calls hook = true := List.find?_some (p := b.calls) h
  obtain ⟨i, hi, -⟩ := List.any_eq_true.1 hcalls
  have hne : b.code.isEmpty = false := by
    rw [List.isEmpty_eq_false_iff]
    exact List.ne_nil_of_mem hi
  unfold Edit.enter
  rw [hne, h]
  rfl

/-- A body that calls a hook is refused, whatever else is to be done with it. -/
theorem bracket_of_hooked? (h : b.hooked? hooks = some hook) (base : Option TypeName)
    (result : TypeName) (name : String) :
    b.bracket base result name hooks = (.error (.alreadyHooked hook.name), b) := by
  simp only [bracket, Edit.bracket, bind, EStateM.bind, enter_of_hooked? h]

theorem correlate_of_hooked? (h : b.hooked? hooks = some hook) (id : Int32) (name : String)
    (pattern : StepPattern) :
    b.correlate id name hooks pattern = (.error (.alreadyHooked hook.name), b) := by
  simp only [correlate, Edit.correlate, bind, EStateM.bind, enter_of_hooked? h]

end Body

section

variable {b b' : Body} {name : String} {hooks : Hooks}

theorem ahead_sublist {xs : List Piece} {x : Piece} {n : Nat} {run tail : List Instr}
    (hx : xs[n]? = some x) (hrun : run.Sublist tail) :
    (x.ahead ++ run).Sublist (rebuild xs tail) := by
  have hmem : x.code ∈ xs.map Piece.code := List.mem_map_of_mem (List.mem_of_getElem? hx)
  exact ((List.sublist_append_left _ _).trans (List.sublist_flatten_of_mem hmem)).append hrun

theorem Framed.marks {c : Body} {start : Nat} {result : TypeName} {x : Frame}
    (h : Framed b c start result name hooks x) :
    (∃ hook, c.hooked? hooks = some hook) ∧ 4 ≤ c.effort := by
  obtain ⟨i, hi, -⟩ := h.regions
  obtain ⟨y, hy, -, -, ha⟩ := h.spliced.piece start i hi
  rw [if_pos rfl] at ha
  obtain ⟨load, rest, hahead, hload, hrest⟩ := List.map_eq_cons_iff.1 ha
  obtain ⟨call, rest, rfl, hcall, hrest⟩ := List.map_eq_cons_iff.1 hrest
  obtain rfl := List.map_eq_nil_iff.1 hrest
  have hback : [(⟨x.exit, .call hooks.exit⟩ : Instr), ⟨x.done, .endfinally⟩].Sublist
      (x.tail result hooks) := by
    simp [Frame.tail]
  have hrun := ahead_sublist hy hback
  rw [hahead, ← h.code] at hrun
  constructor
  · exact Body.exists_hooked? (hooks.get_mem_all .enter)
      (hrun.subset (List.mem_append_left _ (List.mem_cons_of_mem _ (List.mem_singleton_self _))))
      (by rw [hcall]; rfl)
  · simpa [hload, hcall] using Body.effort_le_of_sublist hrun

/-- A bracketed body calls a hook, and it does more than an empty constructor. -/
theorem bracket_marks {base : Option TypeName} {result : TypeName}
    (h : b.bracket base result name hooks = (.ok (), b')) :
    (∃ hook, b'.hooked? hooks = some hook) ∧ 4 ≤ b'.effort := by
  have hmarks : ∃ c : Body, b'.lengthen = c.lengthen ∧ (∃ hook, c.hooked? hooks = some hook) ∧
      4 ≤ c.effort := by
    cases base with
    | none =>
      obtain ⟨c, x, hlen, -, -, hx⟩ := bracket_eq_ok h
      exact ⟨c, hlen, hx.marks⟩
    | some base =>
      obtain ⟨_, _, c, x, -, hlen, -, -, hx⟩ := bracket_base_eq_ok h
      exact ⟨c, hlen, hx.marks⟩
  obtain ⟨c, hlen, hhook, heffort⟩ := hmarks
  rw [Body.hooked?_of_lengthen_eq hlen, ← Body.effort_lengthen, hlen, Body.effort_lengthen]
  exact ⟨hhook, heffort⟩

/-- The pieces of a woven body: old operations, and calls that carry the number and the name. -/
theorem Woven.carries {c : Body} {entry : Nat} {completions : List Label} {id : Int32}
    {xs : List Piece} {callee : Callee} (h : Woven b c entry completions id name hooks xs)
    (hold : ∀ i ∈ b.code, i.op.callee? ≠ some callee) :
    Carries callee id name (c.code.map Instr.op) := by
  rw [h.code, rebuild, List.append_nil, List.map_flatMap]
  refine Carries.flatMap fun x hx ↦ ?_
  obtain ⟨n, hn⟩ := List.getElem?_of_mem hx
  have hlt : n < b.code.length := h.spliced.length ▸ (List.getElem?_eq_some_iff.1 hn).1
  obtain ⟨x', hx', hmain, hbehind, hahead⟩ :=
    h.spliced.piece n _ (List.getElem?_eq_getElem hlt)
  obtain rfl : x' = x := Option.some_inj.1 (hx'.symm.trans hn)
  have hi := hold _ (List.getElem_mem hlt)
  have hfront : Carries callee id name (x'.ahead.map Instr.op) := by
    rw [hahead]
    split
    · exact .correlatedCall _
    · exact .of_not_calls (List.forall_mem_nil _)
  have hop : Carries callee id name [x'.main.op] := by
    refine .of_not_calls (List.forall_mem_singleton.2 ?_)
    rw [hmain]
    dsimp only
    split
    · exact (Option.some_ne_none _).symm
    · exact hi
  have hback : Carries callee id name (x'.behind.map Instr.op) := by
    rw [hbehind]
    split
    · exact (Carries.correlatedCall _).append (.of_not_calls (List.forall_mem_singleton.2 hi))
    · exact .of_not_calls (List.forall_mem_nil _)
  simpa [Piece.code] using hfront.append (hop.append hback)

theorem Woven.call_mem {c : Body} {entry : Nat} {completions : List Label} {id : Int32}
    {xs : List Piece} (h : Woven b c entry completions id name hooks xs) (hlt : entry < b.size) :
    .call hooks.asyncEnter ∈ c.code.map Instr.op := by
  obtain ⟨x, hx, -, -, hahead⟩ := h.spliced.piece entry _ (List.getElem?_eq_getElem hlt)
  rw [if_pos rfl] at hahead
  have hfront : (x.ahead.map Instr.op).Sublist (c.code.map Instr.op) := by
    rw [h.code]
    simpa using (ahead_sublist hx (List.nil_sublist [])).map Instr.op
  refine hfront.subset ?_
  simp [hahead, correlatedCall]

/-- A correlated body calls a hook. None of the calls of hooks in it is old, and all of them carry the
number and the name. -/
theorem correlate_marks {id : Int32} {pattern : StepPattern} {exits : Exits}
    (h : b.correlate id name hooks pattern = (.ok exits, b')) :
    b.hooked? hooks = none ∧ (∃ hook, b'.hooked? hooks = some hook) ∧
      .call hooks.asyncEnter ∈ b'.code.map Instr.op ∧
      ∀ callee ∈ hooks.all, Carries callee id name (b'.code.map Instr.op) := by
  obtain ⟨-, -, hne, -⟩ := edits_of_correlate h
  obtain ⟨c, xs, entry, hlen, -, hfree, hentry, -, hw⟩ :=
    correlate_eq_ok (nodup_labels_of_correlate h) h
  have hlt : entry < b.lengthen.size := by
    rw [Body.size_lengthen]
    exact Body.stepEntry_lt hne hentry
  have hcall : .call hooks.asyncEnter ∈ b'.code.map Instr.op :=
    Body.exists_call_of_lengthen_eq hlen (hw.call_mem hlt)
  refine ⟨hfree, ?_, hcall, fun callee hc ↦ ?_⟩
  · obtain ⟨i, hi, he⟩ := List.mem_map.1 hcall
    exact Body.exists_hooked? (hooks.get_mem_all .asyncEnter) hi (by rw [he]; rfl)
  · have hold := Body.callee?_ne_of_hooked? (b := b.lengthen)
      ((Body.hooked?_lengthen b hooks).trans hfree) hc
    have hops (d : Body) : d.lengthen.code.map Instr.op = (d.code.map Instr.op).map Op.lengthen := by
      simp [Body.lengthen]
    rw [← Carries.lengthen_iff, ← hops, hlen, hops, Carries.lengthen_iff]
    exact hw.carries hold

end

end CilSpan
