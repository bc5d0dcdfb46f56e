import CilSpan.Proofs.Span.Edits
import CilSpan.Span.Bracket
import CilSpan.Span.Correlate

namespace CilSpan

/-- A reason that lies in the body, and not in a method that has none or no step method. -/
def Refusal.OfBody : Refusal → Prop
  | .noBody | .noStateMachine | .stepCount _ _ => False
  | _ => True

namespace Edit

variable {α β : Type} {P : Refusal → Prop}

def RefusedFor (P : Refusal → Prop) (x : Edit α) : Prop :=
  ∀ b e c, x b = .error e c → P e

theorem RefusedFor.bind {x : Edit α} {f : α → Edit β} (hx : RefusedFor P x)
    (hf : ∀ a, RefusedFor P (f a)) : RefusedFor P (x >>= f) := by
  intro b e c h
  simp only [Bind.bind, EStateM.bind] at h
  cases hb : x b with
  | ok a d =>
    rw [hb] at h
    exact hf a d e c h
  | error e' d =>
    rw [hb] at h
    obtain ⟨rfl, -⟩ := EStateM.Result.error.inj h
    exact hx b e' d hb

theorem refusedFor_pure (a : α) : RefusedFor P (pure a) := nofun

theorem refusedFor_get : RefusedFor P (get : Edit Body) := nofun

theorem refusedFor_modify (f : Body → Body) : RefusedFor P (modify f : Edit Unit) := nofun

theorem refusedFor_create (op : Op) : RefusedFor P (create op) := nofun

theorem refusedFor_enter (hooks : Hooks) : RefusedFor Refusal.OfBody (enter hooks) := by
  intro b e c h
  unfold enter at h
  split at h
  · cases h
    trivial
  · split at h <;> cases h
    trivial

theorem refusedFor_finish : RefusedFor Refusal.OfBody finish := by
  intro b e c h
  simp only [finish] at h
  split at h <;> cases h
  trivial

theorem refusedFor_insert (index : Nat) (ops : List Op) :
    RefusedFor Refusal.OfBody (Edit.insert index ops) := by
  intro b e c h
  unfold Edit.insert at h
  split at h <;> cases h
  trivial

theorem refusedFor_insertBeforeLast (count : Nat) (ops : List Op) :
    RefusedFor Refusal.OfBody (insertBeforeLast count ops) := by
  intro b e c h
  unfold insertBeforeLast at h
  split at h
  · exact refusedFor_insert _ ops b e c h
  · cases h
    trivial

theorem refusedFor_labelAt (index : Nat) : RefusedFor Refusal.OfBody (labelAt index) := by
  intro b e c h
  unfold labelAt at h
  split at h <;> cases h
  trivial

theorem refusedFor_addLocal (type : TypeName) : RefusedFor Refusal.OfBody (addLocal type) := by
  intro b e c h
  unfold addLocal at h
  split at h <;> cases h
  trivial

theorem refusedFor_findBaseCall (base : Option TypeName) :
    RefusedFor Refusal.OfBody (findBaseCall base) := by
  intro b e c h
  unfold findBaseCall at h
  split at h
  · cases h
  · split at h <;> cases h
    trivial

theorem refusedFor_spanStart (baseCall : Option Label) :
    RefusedFor Refusal.OfBody (spanStart baseCall) := by
  intro b e c h
  unfold spanStart at h
  split at h
  · cases h
  · split at h
    · split at h <;> cases h
      trivial
    · cases h
      trivial

theorem refusedFor_funnelReturns (result : TypeName) :
    RefusedFor Refusal.OfBody (funnelReturns result) := by
  refine refusedFor_get.bind fun b ↦ ?_
  dsimp only
  split
  · refine (refusedFor_create .ret).bind fun exit ↦ ?_
    exact (refusedFor_modify _).bind fun _ ↦ refusedFor_pure _
  · refine (refusedFor_addLocal result).bind fun slot ↦ ?_
    refine (refusedFor_create (.ldloc slot)).bind fun load ↦ ?_
    exact (refusedFor_modify _).bind fun _ ↦ refusedFor_pure _

theorem refusedFor_bracket (base : Option TypeName) (result : TypeName) (name : String)
    (hooks : Hooks) : RefusedFor Refusal.OfBody (bracket base result name hooks) := by
  refine (refusedFor_enter hooks).bind fun _ ↦ ?_
  refine (refusedFor_findBaseCall base).bind fun baseCall ↦ ?_
  refine (refusedFor_modify _).bind fun _ ↦ ?_
  refine (refusedFor_funnelReturns result).bind fun funnel ↦ ?_
  refine (refusedFor_spanStart baseCall).bind fun start ↦ ?_
  refine (refusedFor_labelAt start).bind fun guarded ↦ ?_
  refine (refusedFor_insert _ _).bind fun _ ↦ ?_
  refine refusedFor_get.bind fun b ↦ ?_
  refine (refusedFor_insertBeforeLast _ _).bind fun _ ↦ ?_
  exact (refusedFor_modify _).bind fun _ ↦ refusedFor_finish

theorem refusedFor_ofExcept {x : Except Refusal α} (h : ∀ e, x = .error e → P e) :
    RefusedFor P (ofExcept x) := by
  intro b e c he
  cases x with
  | ok a => cases he
  | error e' =>
    obtain ⟨rfl, -⟩ := EStateM.Result.error.inj he
    exact h e' rfl

theorem ofBody_of_exits {b : Body} {pattern : StepPattern} {e : Refusal}
    (h : b.exits pattern = .error e) : e.OfBody := by
  unfold Body.exits at h
  split at h
  · cases h
    trivial
  · dsimp only at h
    split at h <;> cases h
    trivial

theorem ofBody_of_stepEntry {b : Body} {pattern : StepPattern} {e : Refusal}
    (h : b.stepEntry pattern = .error e) : e.OfBody := by
  simp only [Body.stepEntry] at h
  split at h
  · cases h
  · split at h
    · cases h
      trivial
    · split at h <;> cases h
      trivial

theorem refusedFor_correlate (id : Int32) (name : String) (hooks : Hooks)
    (pattern : StepPattern) :
    RefusedFor Refusal.OfBody (correlate id name hooks pattern) := by
  refine (refusedFor_enter hooks).bind fun _ ↦ ?_
  refine (refusedFor_modify _).bind fun _ ↦ ?_
  refine refusedFor_get.bind fun b ↦ ?_
  refine (refusedFor_ofExcept fun e ↦ ofBody_of_exits).bind fun exits ↦ ?_
  refine refusedFor_get.bind fun b ↦ ?_
  refine (refusedFor_ofExcept fun e ↦ ofBody_of_stepEntry).bind fun entry ↦ ?_
  refine (refusedFor_insert _ _).bind fun _ ↦ ?_
  refine (refusedFor_modify _).bind fun _ ↦ ?_
  exact refusedFor_finish.bind fun _ ↦ refusedFor_pure exits

end Edit

namespace Body

variable {b b' : Body} {name : String} {hooks : Hooks} {e : Refusal}

theorem ofBody_of_bracket {base : Option TypeName} {result : TypeName}
    (h : b.bracket base result name hooks = (.error e, b')) : e.OfBody := by
  unfold bracket at h
  split at h <;> cases h
  exact Edit.refusedFor_bracket _ _ _ _ _ _ _ ‹_›

theorem ofBody_of_correlate {id : Int32} {pattern : StepPattern}
    (h : b.correlate id name hooks pattern = (.error e, b')) : e.OfBody := by
  unfold correlate at h
  split at h <;> cases h
  exact Edit.refusedFor_correlate _ _ _ _ _ _ _ ‹_›

end Body

end CilSpan
