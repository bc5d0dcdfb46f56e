import CilSpan.Proofs.Batch.Preconditions

namespace CilSpan

theorem Hooks.nodup_all_on (tracer : TypeName) : (Hooks.on tracer).all.Nodup := by
  refine List.Nodup.map (fun h h' he ↦ ?_) (by decide)
  have hsame := congrArg (Hooks.on tracer).hook? he
  rw [hook?_on, hook?_on] at hsame
  exact Option.some_inj.1 hsame

namespace TypeDecl

variable {t t' : TypeDecl} {hook : Hook} {before after : List Hook}

theorem exists_hooks_iff : (∃ h, t.hooks = .ok h) ↔ ∀ hook, t.Offers hook := by
  constructor
  · rintro ⟨h, hok⟩
    obtain ⟨-, hoffers⟩ | ⟨_, _, _, -, -, -, herror⟩ := t.hooks_cases
    · exact hoffers
    · rw [hok] at herror
      cases herror
  · intro hoffers
    exact ⟨_, hooks_of_offers hoffers⟩

/-- Of the hooks that a type lacks, the first is named. -/
theorem hooks_of_first_lack (hall : Hook.all = before ++ hook :: after)
    (hbefore : ∀ h ∈ before, t.Offers h) (hlack : ¬t.Offers hook) :
    t.hooks = .error (.missingHook t.type.full hook.signature) := by
  classical
  have hfirst : ∀ {before hook after}, Hook.all = before ++ hook :: after →
      (∀ h ∈ before, t.Offers h) → ¬t.Offers hook →
        Hook.all.find? (fun h ↦ ¬t.Offers h) = some hook := fun hall hbefore hlack ↦
    List.find?_eq_some_iff_append.2 ⟨by simpa using hlack, _, _, hall, by simpa using hbefore⟩
  obtain ⟨-, hoffers⟩ | ⟨_, hook', _, hall', hbefore', hlack', herror⟩ := t.hooks_cases
  · exact absurd (hoffers hook) hlack
  · have hsame := (hfirst hall hbefore hlack).symm.trans (hfirst hall' hbefore' hlack')
    rw [Option.some_inj.1 hsame, herror]

/-- Types of one name that offer the same hooks have the same search result. -/
theorem hooks_congr (htype : t'.type = t.type) (hoffers : ∀ hook, t'.Offers hook ↔ t.Offers hook) :
    t'.hooks = t.hooks := by
  obtain ⟨hok, hall⟩ | ⟨before, hook, after, hall, hbefore, hlack, herror⟩ := t.hooks_cases
  · rw [hok, hooks_of_offers fun hook ↦ (hoffers hook).2 (hall hook), htype]
  · rw [herror, hooks_of_first_lack hall (fun h hh ↦ (hoffers h).2 (hbefore h hh))
      (mt (hoffers hook).1 hlack), htype]

theorem offers_of_perm {methods extra : List MethodDecl}
    (hextra : ∀ m ∈ extra, ∀ hook : Hook, ¬(m.name = hook.name ∧ m.isStatic = true ∧
      m.result = .void ∧ m.params = hook.params))
    (hperm : methods.Perm (t.methods ++ extra)) (hook : Hook) :
    { t with methods }.Offers hook ↔ t.Offers hook := by
  constructor
  · rintro ⟨m, hm, hhook⟩
    obtain hm | hm := List.mem_append.1 (hperm.mem_iff.1 hm)
    · exact ⟨m, hm, hhook⟩
    · exact absurd hhook (hextra m hm hook)
  · rintro ⟨m, hm, hhook⟩
    exact ⟨m, hperm.mem_iff.2 (List.mem_append_left extra hm), hhook⟩

/-- The search succeeds exactly on types that offer all four hooks, and then its result is the
standard hooks on the type, which differ from each other and are told by `Hooks.hook?`. Otherwise it
names the first hook that is not offered. Methods in another order, and more methods with other
signatures among them, change nothing. -/
theorem hooks_resolved (t : TypeDecl) :
    Hook.all.map Hook.signature = ["Begin(System.String)", "End()",
      "AsyncBegin(System.Int32,System.String)", "AsyncEnd(System.Int32,System.String)"] ∧
    ((∃ h, t.hooks = .ok h) ↔ ∀ hook ∈ Hook.all, t.Offers hook) ∧
    (∀ h, t.hooks = .ok h →
      h = .on t.type ∧ h.all.Nodup ∧ ∀ hook, h.hook? (h.get hook) = some hook) ∧
    (∀ before hook after, Hook.all = before ++ hook :: after → (∀ h ∈ before, t.Offers h) →
      ¬t.Offers hook → t.hooks = .error (.missingHook t.type.full hook.signature)) ∧
    ∀ methods extra : List MethodDecl, (∀ m ∈ extra, ∀ hook : Hook, ¬(m.name = hook.name ∧
        m.isStatic = true ∧ m.result = .void ∧ m.params = hook.params)) →
      methods.Perm (t.methods ++ extra) → { t with methods }.hooks = t.hooks := by
  have hall (hook : Hook) : hook ∈ Hook.all := by cases hook <;> decide
  refine ⟨by decide, ?_, fun h hok ↦ ?_, fun _ _ _ ↦ hooks_of_first_lack,
    fun methods extra hextra hperm ↦ hooks_congr rfl (offers_of_perm hextra hperm)⟩
  · rw [exists_hooks_iff]
    exact ⟨fun hoffers hook _ ↦ hoffers hook, fun hoffers hook ↦ hoffers hook (hall hook)⟩
  · have hon : h = .on t.type :=
      Except.ok.inj (hok.symm.trans (hooks_of_offers (exists_hooks_iff.1 ⟨h, hok⟩)))
    subst hon
    exact ⟨rfl, Hooks.nodup_all_on t.type, hook?_on t.type⟩

def crowdedTracer : TypeDecl where
  space := "Diagnostics"
  name := "Tracer"
  base := none
  nested := []
  methods := [
    { routine with name := "AsyncEnd", params := [.int32, .string] },
    { routine with name := "Begin", params := [.int32] },
    { routine with name := "End", isStatic := false },
    { routine with name := "Begin", params := [.string] },
    { routine with name := "AsyncBegin", params := [.string, .int32] },
    { routine with name := "AsyncBegin", params := [.int32, .string] },
    { routine with name := "End" }]
where
  routine : MethodDecl := ⟨"", [], .void, true, false, [], none, none⟩

/-- Without its last routine the tracer has no static `End()`, whatever comes behind the hooks. -/
theorem hooks_resolved_crowdedTracer :
    let t := crowdedTracer
    let lacking := { t with methods := t.methods.dropLast }
    let more := [{ crowdedTracer.routine with name := "End", result := .int32 },
      { crowdedTracer.routine with name := "Begin" }]
    (∃ h, t.hooks = .ok h ∧ h = .on ⟨"Diagnostics", "Tracer"⟩ ∧ h.all.Nodup ∧
      ∀ hook, h.hook? (h.get hook) = some hook) ∧
    lacking.hooks = .error (.missingHook "Diagnostics.Tracer" "End()") ∧
    { t with methods := (t.methods ++ more).reverse }.hooks = t.hooks := by
  intro t lacking more
  obtain ⟨-, hiff, hon, -, hsame⟩ := hooks_resolved t
  obtain ⟨-, -, -, hlack, -⟩ := hooks_resolved lacking
  obtain ⟨h, hok⟩ := hiff.2 (by unfold Offers; decide)
  have hmore : ∀ m ∈ more, ∀ hook : Hook, ¬(m.name = hook.name ∧ m.isStatic = true ∧
      m.result = .void ∧ m.params = hook.params) := by
    intro m hm hook
    cases hook <;> revert m <;> decide
  exact ⟨⟨h, hok, hon h hok⟩,
    hlack [.enter] .exit [.asyncEnter, .asyncExit] rfl (by unfold Offers; decide)
      (by unfold Offers; decide),
    hsame _ more hmore (List.reverse_perm _)⟩

end TypeDecl

end CilSpan
