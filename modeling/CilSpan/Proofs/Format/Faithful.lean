import CilSpan.Proofs.Format.Declarations
import CilSpan.Proofs.Format.Traces

namespace CilSpan

open Json

variable {α : Type} {write : α → Json} {read : Json → Option α} {levels : Nat}

/-- What has been written is read as what it was, from the value itself and from either text of it,
and whatever can be read is restored when it is written and read again. -/
structure Faithful (write : α → Json) (read : Json → Option α) : Prop where
  back : ∀ x, read (write x) = some x
  again : ∀ j x, read j = some x → read (write x) = read j
  pretty : ∀ x, (write x).depth ≤ maxDepth → (parse? (write x).pretty).bind read = some x
  compact : ∀ x, (write x).depth ≤ maxDepth → (parse? (write x).compact).bind read = some x

theorem Faithful.of_plain (hback : ∀ x, read (write x) = some x)
    (hplain : ∀ x, (write x).plain = true) : Faithful write read where
  back := hback
  again j x h := (hback x).trans h.symm
  pretty x hx := by rw [parse?_pretty (hplain x), clip_eq_self hx, Option.bind_some, hback]
  compact x hx := by rw [parse?_compact (hplain x), clip_eq_self hx, Option.bind_some, hback]

namespace Restores

variable (h : Restores write read levels)
include h

theorem faithful : Faithful write read := .of_plain h.back fun x ↦ (h.fits x).1

theorem depth_le (hlevels : levels ≤ maxDepth) (x : α) : (write x).depth ≤ maxDepth :=
  (h.fits x).2.trans hlevels

end Restores

/-- Every form of the model restores what has been written in it. Only methods and modules can be
nested too deep for a text. -/
theorem forms_faithful :
    Faithful ModuleDecl.toJson ModuleDecl.ofJson? ∧ Faithful MethodDecl.toJson MethodDecl.ofJson? ∧
    (Faithful Body.toJson Body.ofJson? ∧ ∀ b : Body, b.toJson.depth ≤ maxDepth) ∧
    (Faithful Op.toJson Op.ofJson? ∧ ∀ op : Op, op.toJson.depth ≤ maxDepth) ∧
    (Faithful Hooks.toJson Hooks.ofJson? ∧ ∀ h : Hooks, h.toJson.depth ≤ maxDepth) ∧
    (Faithful Config.toJson Config.ofJson? ∧ ∀ c : Config, c.toJson.depth ≤ maxDepth) ∧
    (Faithful Value.toJson Value.ofJson? ∧ ∀ v : Value, v.toJson.depth ≤ maxDepth) ∧
    (Faithful Event.toJson Event.ofJson? ∧ ∀ e : Event, e.toJson.depth ≤ maxDepth) ∧
    (Faithful Outcome.toJson Outcome.ofJson? ∧ ∀ o : Outcome, o.toJson.depth ≤ maxDepth) ∧
    Faithful Trace.toJson Trace.ofJson? ∧ ∀ t : Trace, t.toJson.depth ≤ maxDepth := by
  have hmodule : Faithful ModuleDecl.toJson ModuleDecl.ofJson? :=
    .of_plain ModuleDecl.ofJson?_toJson ModuleDecl.plain_toJson
  have hmethod : Faithful MethodDecl.toJson MethodDecl.ofJson? :=
    .of_plain MethodDecl.ofJson?_toJson MethodDecl.plain_toJson
  exact ⟨hmodule, hmethod, ⟨Body.restores.faithful, Body.restores.depth_le (by decide)⟩,
    ⟨Op.restores.faithful, Op.restores.depth_le (by decide)⟩,
    ⟨Hooks.restores.faithful, Hooks.restores.depth_le (by decide)⟩,
    ⟨Config.restores.faithful, Config.restores.depth_le (by decide)⟩,
    ⟨Value.restores.faithful, Value.restores.depth_le (by decide)⟩,
    ⟨Event.restores.faithful, Event.restores.depth_le (by decide)⟩,
    ⟨Outcome.restores.faithful, Outcome.restores.depth_le (by decide)⟩,
    Trace.restores.faithful, Trace.restores.depth_le (by decide)⟩

end CilSpan
