import CilSpan.Proofs.Body.Intact
import CilSpan.Proofs.Body.Numbered
import CilSpan.Proofs.Span.Marked

namespace CilSpan

inductive FirstOf : List (Refusal → Prop) → Option Refusal → Prop
  | nil : FirstOf [] none
  | here {reason : Refusal → Prop} {rest : List (Refusal → Prop)} {e : Refusal} (h : reason e) :
      FirstOf (reason :: rest) (some e)
  | later {reason : Refusal → Prop} {rest : List (Refusal → Prop)} {e? : Option Refusal}
      (h : ∀ e, ¬reason e) (hrest : FirstOf rest e?) : FirstOf (reason :: rest) e?

def Body.CallsFirst (b : Body) (hooks : Hooks) (hook : Callee) : Prop :=
  ∃ before after, hooks.all = before ++ hook :: after ∧
    (∃ i ∈ b.code, i.op.callee? = some hook) ∧
    ∀ h ∈ before, ∀ i ∈ b.code, i.op.callee? ≠ some h

def Body.entryReasons (b : Body) (hooks : Hooks) : List (Refusal → Prop) :=
  [fun e ↦ e = .emptyBody ∧ b.code = [],
    fun e ↦ ∃ hook, e = .alreadyHooked hook.name ∧ b.CallsFirst hooks hook]

namespace FirstOf

variable {reasons more : List (Refusal → Prop)} {e : Refusal} {e? : Option Refusal}

theorem exists_first (reasons : List (Refusal → Prop)) : ∃ e?, FirstOf reasons e? := by
  induction reasons with
  | nil => exact ⟨_, .nil⟩
  | cons reason rest ih =>
    by_cases h : ∃ e, reason e
    · obtain ⟨e, h⟩ := h
      exact ⟨_, .here h⟩
    · obtain ⟨e?, hrest⟩ := ih
      exact ⟨e?, .later (not_exists.1 h) hrest⟩

theorem none_iff : FirstOf reasons none ↔ ∀ reason ∈ reasons, ∀ e, ¬reason e := by
  induction reasons with
  | nil => exact ⟨fun _ ↦ nofun, fun _ ↦ .nil⟩
  | cons reason rest ih =>
    rw [List.forall_mem_cons, ← ih]
    constructor
    · rintro (_ | _ | ⟨h, hrest⟩)
      exact ⟨h, hrest⟩
    · rintro ⟨h, hrest⟩
      exact .later h hrest

/-- A reason among the first ones counts whatever else there is; else the others count. -/
theorem append_cases (h : FirstOf (reasons ++ more) e?) :
    (∃ e, e? = some e ∧ FirstOf reasons (some e)) ∨ FirstOf reasons none ∧ FirstOf more e? := by
  induction reasons with
  | nil => exact .inr ⟨.nil, h⟩
  | cons reason rest ih =>
    cases h with
    | here h => exact .inl ⟨_, rfl, .here h⟩
    | later h hrest =>
      obtain ⟨e, he, hfirst⟩ | ⟨hnone, hmore⟩ := ih hrest
      · exact .inl ⟨e, he, .later h hfirst⟩
      · exact .inr ⟨.later h hnone, hmore⟩

/-- The answer is known by the first reason that applies as soon as each of them is seen to lead to
a refusal and none of them to none. -/
theorem decides {α : Type} {answer : Except Refusal α}
    (herror : ∀ e, FirstOf reasons (some e) → answer = .error e)
    (hok : FirstOf reasons none → ∃ a, answer = .ok a) :
    (∀ e, answer = .error e ↔ FirstOf reasons (some e)) ∧
      ((∃ a, answer = .ok a) ↔ FirstOf reasons none) := by
  obtain ⟨_ | e', hfirst⟩ := exists_first reasons
  · obtain ⟨a, rfl⟩ := hok hfirst
    refine ⟨fun e ↦ ⟨nofun, fun h ↦ ?_⟩, iff_of_true ⟨a, rfl⟩ hfirst⟩
    cases herror e h
  · have herr := herror e' hfirst
    subst herr
    refine ⟨fun e ↦ ⟨fun h ↦ ?_, herror e⟩, ⟨fun h ↦ ?_, hok⟩⟩
    · cases h
      exact hfirst
    · obtain ⟨a, h⟩ := h
      cases h

end FirstOf

namespace Body

variable {b : Body} {hooks : Hooks} {hook : Callee}

theorem calls_iff : b.calls hook = true ↔ ∃ i ∈ b.code, i.op.callee? = some hook := by
  simp only [calls, List.any_eq_true, decide_eq_true_eq]

theorem hooked?_iff : b.hooked? hooks = some hook ↔ b.CallsFirst hooks hook := by
  have hnot (h : Callee) : (!b.calls h) = true ↔ ∀ i ∈ b.code, i.op.callee? ≠ some h := by
    rw [Bool.not_eq_true', ← Bool.not_eq_true, calls_iff]
    simp only [not_exists, not_and, ne_eq]
  rw [hooked?, List.find?_eq_some_iff_append, calls_iff]
  simp only [hnot]
  constructor
  · rintro ⟨hcall, before, after, hall, hbefore⟩
    exact ⟨before, after, hall, hcall, hbefore⟩
  · rintro ⟨before, after, hall, hcall, hbefore⟩
    exact ⟨hcall, before, after, hall, hbefore⟩

end Body

namespace Edit

variable {b : Body} {hooks : Hooks} {e : Refusal}

theorem enter_of_first (h : FirstOf (b.entryReasons hooks) (some e)) :
    enter hooks b = .error e b := by
  unfold Body.entryReasons at h
  cases h with
  | here h =>
    obtain ⟨rfl, hempty⟩ := h
    simp only [enter, hempty, List.isEmpty_nil, if_true]
  | later _ h =>
    cases h with
    | here h =>
      obtain ⟨hook, rfl, hhook⟩ := h
      exact Body.enter_of_hooked? (Body.hooked?_iff.2 hhook)
    | later _ h => cases h

theorem enter_of_none (h : FirstOf (b.entryReasons hooks) none) : enter hooks b = .ok () b ∧
    b.code ≠ [] := by
  simp only [Body.entryReasons, FirstOf.none_iff, List.forall_mem_cons] at h
  obtain ⟨hempty, hhook, -⟩ := h
  have hne : b.code ≠ [] := fun hnil ↦ hempty _ ⟨rfl, hnil⟩
  have hnone : b.hooked? hooks = none := by
    refine Option.eq_none_iff_forall_ne_some.2 fun hook hsome ↦ ?_
    exact hhook _ ⟨hook, rfl, Body.hooked?_iff.1 hsome⟩
  refine ⟨?_, hne⟩
  rw [enter, hnone, List.isEmpty_eq_false_iff.2 hne]
  rfl

end Edit

end CilSpan
