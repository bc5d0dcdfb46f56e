import CilSpan.Proofs.Span.Edits
import CilSpan.Span.Bracket
import CilSpan.Span.Correlate

namespace CilSpan

/-- The same operation, but for how wide a branch is encoded. -/
inductive Op.Recoded : Op → Op → Prop
  | same (op : Op) : Recoded op op
  | width (jump : Jump) (width width' : Width) (target : Label) :
    Recoded (.branch jump width target) (.branch jump width' target)

structure Body.Recoded (b c : Body) : Prop where
  code : List.Forall₂ (fun i j ↦ i.label = j.label ∧ i.op.Recoded j.op) b.code c.code
  locals : b.locals = c.locals
  regions : b.regions = c.regions
  initLocals : b.initLocals = c.initLocals
  next : b.next = c.next

namespace Op

theorem lengthen_lengthen (op : Op) : op.lengthen.lengthen = op.lengthen := by
  cases op <;> rfl

theorem recoded_iff {op op' : Op} : op.Recoded op' ↔ op.lengthen = op'.lengthen := by
  constructor
  · rintro (_ | ⟨jump, width, width', target⟩)
    · rfl
    · rfl
  · intro h
    cases op with
    | branch jump width target =>
      cases op' with
      | branch jump' width' target' =>
        obtain ⟨rfl, -, rfl⟩ := Op.branch.inj h
        exact .width jump width width' target
      | _ => cases h
    | _ =>
      cases op' <;> cases h
      exact .same _

end Op

namespace Body

variable {b c : Body}

theorem recoded_iff : b.Recoded c ↔ b.lengthen = c.lengthen := by
  have hcode : List.Forall₂ (fun i j ↦ i.label = j.label ∧ i.op.Recoded j.op) b.code c.code ↔
      b.lengthen.code = c.lengthen.code := by
    rw [← List.forall₂_eq_eq_eq, lengthen, lengthen, List.forall₂_map_left_iff,
      List.forall₂_map_right_iff]
    simp only [Op.recoded_iff, Instr.mk.injEq]
  constructor
  · rintro ⟨h, hlocals, hregions, hinit, hnext⟩
    have hcode := hcode.1 h
    simp only [lengthen] at hcode ⊢
    rw [hcode, hlocals, hregions, hinit, hnext]
  · intro h
    have hframe := Body.mk.inj h
    exact ⟨hcode.2 hframe.1, hframe.2.1, hframe.2.2.1, hframe.2.2.2.1, hframe.2.2.2.2⟩

theorem lengthen_lengthen (b : Body) : b.lengthen.lengthen = b.lengthen := by
  simp [lengthen, Op.lengthen_lengthen]

theorem baseCall?_lengthen (b : Body) (base : TypeName) :
    b.lengthen.baseCall? base = b.baseCall? base := by
  have hop (op : Op) : op.lengthen.constructs base = op.constructs base := by
    cases op <;> rfl
  simp only [baseCall?, lengthen, List.find?_map, Function.comp_def, hop, Option.map_map]

end Body

namespace Edit

variable {α β : Type}

def Looks (x : Edit α) : Prop :=
  ∀ b c : Body, b.lengthen = c.lengthen →
    (∃ a, x b = .ok a b ∧ x c = .ok a c) ∨ ∃ e, x b = .error e b ∧ x c = .error e c

theorem looks_enter (hooks : Hooks) : Looks (enter hooks) := by
  intro b c h
  have hempty : b.code.isEmpty = c.code.isEmpty := by
    have hlen := congrArg (fun d : Body ↦ d.code.isEmpty) h
    simpa only [Body.lengthen, List.isEmpty_map] using hlen
  have hhook : b.hooked? hooks = c.hooked? hooks := by
    rw [← Body.hooked?_lengthen, h, Body.hooked?_lengthen]
  unfold enter
  rw [hempty, hhook]
  cases c.code.isEmpty with
  | true => exact .inr ⟨.emptyBody, rfl, rfl⟩
  | false =>
    cases c.hooked? hooks with
    | some hook => exact .inr ⟨.alreadyHooked hook.name, rfl, rfl⟩
    | none => exact .inl ⟨(), rfl, rfl⟩

theorem looks_findBaseCall (base : Option TypeName) : Looks (findBaseCall base) := by
  intro b c h
  cases base with
  | none => exact .inl ⟨none, rfl, rfl⟩
  | some base =>
    have hcall : b.baseCall? base = c.baseCall? base := by
      rw [← Body.baseCall?_lengthen, h, Body.baseCall?_lengthen]
    simp only [findBaseCall, hcall]
    cases c.baseCall? base with
    | some l => exact .inl ⟨some l, rfl, rfl⟩
    | none => exact .inr ⟨.noBaseCall, rfl, rfl⟩

/-- Does the same with two such bodies, unless it refuses both before it has changed anything. -/
def Agrees (x : Edit α) : Prop :=
  ∀ b c : Body, b.lengthen = c.lengthen →
    (∃ e, x b = .error e b ∧ x c = .error e c) ∨ x b = x c

theorem agrees_lengthen (f : Unit → Edit α) : Agrees (modify Body.lengthen >>= f) := by
  intro b c h
  rw [modify_bind, modify_bind, h]
  exact .inr rfl

theorem Looks.agrees {x : Edit α} {f : α → Edit β} (hx : Looks x) (hf : ∀ a, Agrees (f a)) :
    Agrees (x >>= f) := by
  intro b c h
  simp only [bind, EStateM.bind]
  obtain ⟨a, hb, hc⟩ | ⟨e, hb, hc⟩ := hx b c h
  · rw [hb, hc]
    exact hf a b c h
  · rw [hb, hc]
    exact .inl ⟨e, rfl, rfl⟩

theorem agrees_bracket (base : Option TypeName) (result : TypeName) (name : String)
    (hooks : Hooks) : Agrees (bracket base result name hooks) :=
  (looks_enter hooks).agrees fun _ ↦ (looks_findBaseCall base).agrees fun _ ↦ agrees_lengthen _

theorem agrees_correlate (id : Int32) (name : String) (hooks : Hooks) (pattern : StepPattern) :
    Agrees (correlate id name hooks pattern) :=
  (looks_enter hooks).agrees fun _ ↦ agrees_lengthen _

end Edit

namespace Body

theorem invoke_of_recoded {σ : Type} {b c : Body} (h : b.Recoded c) (hooks : Hooks)
    (host : Host σ) (call : Invocation) (heap : Heap) (world : σ) :
    b.invoke hooks host call heap world = c.invoke hooks host call heap world :=
  invoke_eq_of_lengthen_eq (recoded_iff.1 h) hooks host call heap world

theorem bracket_of_recoded {b c : Body} (h : b.Recoded c) (base : Option TypeName)
    (result : TypeName) (name : String) (hooks : Hooks) :
    (∃ e, b.bracket base result name hooks = (.error e, b) ∧
        c.bracket base result name hooks = (.error e, c)) ∨
      b.bracket base result name hooks = c.bracket base result name hooks := by
  unfold bracket
  obtain ⟨e, hb, hc⟩ | he := Edit.agrees_bracket base result name hooks b c (recoded_iff.1 h)
  · exact .inl ⟨e, by rw [hb], by rw [hc]⟩
  · exact .inr (by rw [he])

theorem correlate_of_recoded {b c : Body} (h : b.Recoded c) (id : Int32) (name : String)
    (hooks : Hooks) (pattern : StepPattern) :
    (∃ e, b.correlate id name hooks pattern = (.error e, b) ∧
        c.correlate id name hooks pattern = (.error e, c)) ∨
      b.correlate id name hooks pattern = c.correlate id name hooks pattern := by
  unfold correlate
  obtain ⟨e, hb, hc⟩ | he := Edit.agrees_correlate id name hooks pattern b c (recoded_iff.1 h)
  · exact .inl ⟨e, by rw [hb], by rw [hc]⟩
  · exact .inr (by rw [he])

theorem recoded_lengthen (b : Body) : b.Recoded b.lengthen :=
  recoded_iff.2 (lengthen_lengthen b).symm

theorem recoded_shorten (b : Body) : b.Recoded b.shorten :=
  recoded_iff.2 (lengthen_shorten b).symm

end Body

/-- How wide branches are encoded cannot be observed. Making branches long or short changes nothing
else; and two bodies that differ in nothing else have the same invocations, and either
instrumentation gives the same answer for both and, unless it refuses them, the same body. -/
theorem width_unobservable (b : Body) : b.Recoded b.lengthen ∧ b.Recoded b.shorten ∧
    ∀ c, b.Recoded c →
      (∀ (σ : Type) (hooks : Hooks) (host : Host σ) (call : Invocation) (heap : Heap) (world : σ),
        b.invoke hooks host call heap world = c.invoke hooks host call heap world) ∧
      (∀ base result name hooks,
        let here := b.bracket base result name hooks
        let there := c.bracket base result name hooks
        here.1 = there.1 ∧ (here.1 = .ok () → here.2 = there.2)) ∧
      ∀ id name hooks pattern,
        let here := b.correlate id name hooks pattern
        let there := c.correlate id name hooks pattern
        here.1 = there.1 ∧ ∀ exits, here.1 = .ok exits → here.2 = there.2 := by
  refine ⟨b.recoded_lengthen, b.recoded_shorten, fun c h ↦ ⟨?_, ?_, ?_⟩⟩
  · intro σ hooks host call heap world
    exact Body.invoke_of_recoded h hooks host call heap world
  · intro base result name hooks
    obtain ⟨e, hb, hc⟩ | he := Body.bracket_of_recoded h base result name hooks
    · simp [hb, hc]
    · simp [he]
  · intro id name hooks pattern
    obtain ⟨e, hb, hc⟩ | he := Body.correlate_of_recoded h id name hooks pattern
    · simp [hb, hc]
    · simp [he]

def skipAndLeave : Body where
  code := [⟨⟨0⟩, .ldc 1⟩, ⟨⟨1⟩, .branch .ifTrue .long ⟨3⟩⟩, ⟨⟨2⟩, .nop⟩,
    ⟨⟨3⟩, .branch .leave .long ⟨4⟩⟩, ⟨⟨4⟩, .ret⟩]
  locals := []
  regions := []
  initLocals := false
  next := 5

theorem width_unobservable_skipAndLeave :
    let hooks := Hooks.on ⟨"App", "Tracer"⟩
    let long := skipAndLeave
    let short := skipAndLeave.shorten
    long ≠ short ∧ long.Recoded short ∧
      long.invoke hooks .idle ⟨[], 9⟩ .empty () = short.invoke hooks .idle ⟨[], 9⟩ .empty () ∧
      (long.bracket none .void "work" hooks).1 = .ok () ∧
      (long.bracket none .void "work" hooks).2 = (short.bracket none .void "work" hooks).2 ∧
      (long.correlate 3 "work" hooks .standard).1 = .ok ⟨⟨4⟩, [⟨3⟩], []⟩ ∧
      (long.correlate 3 "work" hooks .standard).2 =
        (short.correlate 3 "work" hooks .standard).2 := by
  intro hooks long short
  obtain ⟨-, hshort, h⟩ := width_unobservable long
  obtain ⟨hinvoke, hbracket, hcorrelate⟩ := h short hshort
  have hok : (long.bracket none .void "work" hooks).1 = .ok () := by decide +kernel
  have hexits : (long.correlate 3 "work" hooks .standard).1 = .ok ⟨⟨4⟩, [⟨3⟩], []⟩ := by
    decide +kernel
  exact ⟨by decide +kernel, hshort, hinvoke Unit hooks .idle _ _ (), hok,
    (hbracket none .void "work" hooks).2 hok, hexits,
    (hcorrelate 3 "work" hooks .standard).2 _ hexits⟩

end CilSpan
