import CilSpan.Proofs.Span.OnePass

namespace CilSpan

namespace Body

/-- What an instruction of `b` gives when a correlated span gets its exits: a completion is left as
a `nop`, with the exit of the span and the old operation behind it. -/
def exiting (b : Body) (completions : List Label) (id : Int32) (name : String) (hooks : Hooks)
    (i : Instr) : List Instr :=
  if i.label ∈ completions then
    ⟨i.label, .nop⟩ :: b.stamp (3 + 4 * completions.idxOf i.label)
      (correlatedCall id name hooks.asyncExit ++ [i.op])
  else [i]

def correlated (b : Body) (entry : Nat) (completions : List Label) (id : Int32) (name : String)
    (hooks : Hooks) : List Instr :=
  (b.code.take entry).flatMap (b.exiting completions id name hooks) ++
    b.stamp 0 (correlatedCall id name hooks.asyncEnter) ++
    (b.code.drop entry).flatMap (b.exiting completions id name hooks)

end Body

theorem filter_sublist_flatMap {α : Type} {f : α → List α} {p : α → Bool} {xs : List α}
    (h : ∀ x, p x = true → f x = [x]) : (xs.filter p).Sublist (xs.flatMap f) := by
  induction xs with
  | nil => exact .slnil
  | cons x xs ih =>
    rw [List.flatMap_cons]
    by_cases hx : p x = true
    · rw [List.filter_cons_of_pos hx, h x hx]
      exact ih.cons_cons x
    · rw [List.filter_cons_of_neg hx]
      exact ih.trans (List.sublist_append_right _ _)

theorem others_sublist_correlated (b : Body) (entry : Nat) (completions : List Label) (id : Int32)
    (name : String) (hooks : Hooks) : (b.code.filter (·.label ∉ completions)).Sublist
      (b.correlated entry completions id name hooks) := by
  have hself (i : Instr) (hi : decide (i.label ∉ completions) = true) :
      b.exiting completions id name hooks i = [i] := if_neg (of_decide_eq_true hi)
  conv_lhs => rw [← List.take_append_drop entry b.code, List.filter_append]
  exact ((filter_sublist_flatMap hself).trans (List.sublist_append_left _ _)).append
    (filter_sublist_flatMap hself)

section

variable {b b' : Body} {id : Int32} {name : String} {hooks : Hooks} {pattern : StepPattern}
  {exits : Exits} {c : Body} {entry : Nat} {completions : List Label}

theorem correlated_eq
    (hc : Edit.insert entry (correlatedCall id name hooks.asyncEnter) b = .ok () c)
    (hsub : completions.Sublist b.labels)
    (hn : (completions.foldl (Body.expand (fun _ ↦ .nop)
      fun op ↦ correlatedCall id name hooks.asyncExit ++ [op]) c).labels.Nodup) :
    (completions.foldl (Body.expand (fun _ ↦ .nop)
        fun op ↦ correlatedCall id name hooks.asyncExit ++ [op]) c).code =
      b.correlated entry completions id name hooks ∧
    Stamped b (3 + 4 * completions.length) (completions.foldl (Body.expand (fun _ ↦ .nop)
        fun op ↦ correlatedCall id name hooks.asyncExit ++ [op]) c) := by
  have hnodup : c.labels.Nodup := hn.sublist (Body.labels_foldl_expand_sublist _ _ c completions)
  obtain ⟨hentry, hcode⟩ := (Stamped.refl b).insert hc
  obtain ⟨-, hold, hapart⟩ := List.nodup_append'.1 (hentry.labels.nodup_iff.1 hnodup)
  obtain ⟨hexits, hnext, hperm⟩ := Body.foldl_expand_eq (k := 4) hentry.next (hsub.nodup hold)
    (fun l hl ↦ (Edit.labels_sublist_of_insert hc).subset (hsub.subset hl)) (fun _ ↦ rfl) hn
  -- The entry is new, so no exit is put in there.
  have hfresh : ∀ i ∈ b.stamp 0 (correlatedCall id name hooks.asyncEnter),
      i.label ∉ completions := by
    intro i hi hin
    have hi := List.mem_map_of_mem (f := Instr.label) hi
    rw [Body.map_label_stamp, ← Body.coming_eq_labelsFrom] at hi
    exact hapart hi (hsub.subset hin)
  refine ⟨?_, hentry.grow hnext hperm⟩
  rw [hexits, hcode]
  simp only [List.flatMap_append, Body.flatMap_grown_of_not_mem hfresh]
  rfl

/-- A correlated span is put in in one pass over the code: its entry in front of the instruction at
the entry of the step, and its exit at each completion. Completions are `leave` instructions, and
each becomes a `nop` under its label, the exit, and a new `leave` to the same target. All other
instructions stay as they are and in their order, those of the suspensions among them. The new
labels are the next ones, no two the same and none of them an old one. -/
theorem correlate_one_pass (h : b.correlate id name hooks pattern = (.ok exits, b')) :
    ∃ entry, b.exits pattern = .ok exits ∧ b.stepEntry pattern = .ok entry ∧ entry < b.size ∧
      b'.lengthen.code = b.lengthen.correlated entry exits.completions id name hooks ∧
      (∀ l ∈ exits.completions, ∃ target, ⟨l, .branch .leave .long target⟩ ∈ b.lengthen.code) ∧
      (b.lengthen.code.filter (·.label ∉ exits.completions)).Sublist b'.lengthen.code ∧
      (∀ l ∈ exits.suspensions, l ∉ exits.completions) ∧
      b'.labels.Perm (b.coming exits.draw ++ b.labels) ∧ (b.coming exits.draw).Nodup ∧
      ∀ l ∈ b.coming exits.draw, l ∉ b.labels := by
  obtain ⟨entry, c, hne, -, hexits, hentry, hc, hfinish⟩ := edits_of_correlate h
  have hold : b.lengthen.labels.Nodup := b.labels_lengthen.symm ▸ nodup_labels_of_correlate h
  obtain ⟨hsub, hleave, hapart⟩ := Body.exits_eq_ok hold hexits
  -- No edit makes a branch short, so the outcome in long form is what the edits have left.
  obtain ⟨hfinal, -, hlabels, hnew⟩ := Edit.code_of_finish (edited_exits hc).long hfinish
  obtain ⟨hcode, -, hperm⟩ := correlated_eq hc hsub (hlabels ▸ hnew)
  rw [hcode] at hfinal
  rw [← hlabels, b.labels_lengthen] at hperm
  obtain ⟨hcoming, -, hfresh⟩ := List.nodup_append'.1 (hperm.nodup_iff.1 hnew)
  refine ⟨entry, exits_of_correlate h, hentry, Body.stepEntry_lt hne hentry, hfinal,
    fun l hl ↦ ?_, ?_, hapart, hperm, hcoming, fun l hl hin ↦ hfresh hl hin⟩
  · obtain ⟨⟨l, op⟩, hi, rfl⟩ := List.mem_map.1 (hsub.subset hl)
    obtain ⟨width, target, rfl⟩ := Op.isLeave_iff.1 (hleave _ hi hl)
    cases width with
    | short => cases b.long_lengthen _ hi
    | long => exact ⟨target, hi⟩
  · rw [hfinal]
    exact others_sublist_correlated b.lengthen entry exits.completions id name hooks

end

def completesFirst : Body where
  code := [⟨⟨0⟩, .branch .leave .short ⟨3⟩⟩, ⟨⟨1⟩, .branch .leave .short ⟨4⟩⟩,
    ⟨⟨2⟩, .branch .leave .short ⟨3⟩⟩, ⟨⟨3⟩, .nop⟩, ⟨⟨4⟩, .ret⟩]
  locals := []
  regions := []
  initLocals := false
  next := 5

theorem correlate_one_pass_completesFirst :
    let hooks := Hooks.on ⟨"App", "Tracer"⟩
    ∃ b', completesFirst.correlate 7 "Run" hooks .standard =
        (.ok ⟨⟨3⟩, [⟨0⟩, ⟨2⟩], [⟨1⟩]⟩, b') ∧
      b'.lengthen.code = [⟨⟨5⟩, .ldc 7⟩, ⟨⟨6⟩, .ldstr "Run"⟩, ⟨⟨7⟩, .call hooks.asyncEnter⟩,
        ⟨⟨0⟩, .nop⟩, ⟨⟨8⟩, .ldc 7⟩, ⟨⟨9⟩, .ldstr "Run"⟩, ⟨⟨10⟩, .call hooks.asyncExit⟩,
        ⟨⟨11⟩, .branch .leave .long ⟨3⟩⟩, ⟨⟨1⟩, .branch .leave .long ⟨4⟩⟩,
        ⟨⟨2⟩, .nop⟩, ⟨⟨12⟩, .ldc 7⟩, ⟨⟨13⟩, .ldstr "Run"⟩, ⟨⟨14⟩, .call hooks.asyncExit⟩,
        ⟨⟨15⟩, .branch .leave .long ⟨3⟩⟩, ⟨⟨3⟩, .nop⟩, ⟨⟨4⟩, .ret⟩] := by
  intro hooks
  have hok : (completesFirst.correlate 7 "Run" hooks .standard).1 =
      .ok ⟨⟨3⟩, [⟨0⟩, ⟨2⟩], [⟨1⟩]⟩ := by decide +kernel
  have hstart : completesFirst.stepEntry .standard = .ok 0 := by decide +kernel
  cases hpair : completesFirst.correlate 7 "Run" hooks .standard with
  | mk answer b' =>
    rw [hpair] at hok
    obtain rfl : answer = _ := hok
    obtain ⟨entry, -, hentry, -, hcode, -⟩ := correlate_one_pass hpair
    obtain rfl := Except.ok.inj (hentry.symm.trans hstart)
    refine ⟨b', rfl, hcode.trans ?_⟩
    decide +kernel

end CilSpan
