import CilSpan.Proofs.Layout.Picks
import CilSpan.Proofs.Span.Strict

namespace CilSpan

/-- At each position stands what stood there, or a long branch has become short. -/
theorem Narrowed.getElem?_cases {code code' : List Instr} (h : Narrowed code code') (n : Nat) :
    code'[n]? = code[n]? ∨ ∃ l jump target,
      code[n]? = some ⟨l, .branch jump .long target⟩ ∧
      code'[n]? = some ⟨l, .branch jump .short target⟩ := by
  cases hi : code[n]? with
  | none => exact .inl (h.getElem?_eq_none hi)
  | some i =>
    obtain hsame | ⟨hlong, hshort⟩ := h.each n i hi
    · exact .inl hsame
    · obtain ⟨l, op⟩ := i
      obtain ⟨jump, target, rfl⟩ := Op.isLong_iff.1 hlong
      exact .inr ⟨l, jump, target, rfl, hshort⟩

/-- A body has one end and one number of passes to it. -/
theorem Strict.Passes.unique {b c d : Body} {m n : Nat} (h : Strict.Passes m b c)
    (h' : Strict.Passes n b d) : m = n ∧ c = d := by
  induction h generalizing n with
  | last h =>
    cases h' with
    | last h' =>
      cases h.symm.trans h'
      exact ⟨rfl, rfl⟩
    | again h' _ => cases h.symm.trans h'
  | again h _ ih =>
    cases h' with
    | last h' => cases h.symm.trans h'
    | again h' hrest =>
      cases h.symm.trans h'
      obtain ⟨rfl, rfl⟩ := ih hrest
      exact ⟨rfl, rfl⟩

/-- From every body the passes come to an end, after at most one more than there are long branches.
In the end some long branches are short, with their labels, jumps and targets, and nothing else has
changed at any position or outside the code. Made long again, the body is as if it had only been
made long; its code has not grown. -/
theorem passes_end_narrowed (b : Body) :
    (∃ n, n ≤ longCount b.code + 1 ∧ ∀ m c, Strict.Passes m b c ↔ m = n ∧ c = b.shorten) ∧
    (∀ n : Nat, b.shorten.code[n]? = b.code[n]? ∨ ∃ l jump target,
      b.code[n]? = some ⟨l, .branch jump .long target⟩ ∧
      b.shorten.code[n]? = some ⟨l, .branch jump .short target⟩) ∧
    b.shorten = { b with code := b.shorten.code } ∧
    b.shorten.lengthen = b.lengthen ∧
    b.shorten.codeSize ≤ b.codeSize := by
  have hnarrow : Narrowed b.code b.shorten.code := .passes _ b.code
  obtain ⟨n, hn, hpasses⟩ := Strict.exists_passes b
  refine ⟨⟨n, hn, fun m c ↦ ⟨fun h ↦ h.unique hpasses, ?_⟩⟩, hnarrow.getElem?_cases, rfl,
    b.lengthen_shorten, hnarrow.codeSize_le⟩
  rintro ⟨rfl, rfl⟩
  exact hpasses

/-- The last place of a repeated label counts: the first branch is made short, though it is further
from its target than the third, which is short and out of reach to begin with. The second goes
nowhere and stays long. -/
example :
    let code : List Instr := [⟨⟨1⟩, .branch .always .long ⟨5⟩⟩, ⟨⟨2⟩, .branch .ifTrue .long ⟨99⟩⟩,
      ⟨⟨3⟩, .branch .ifFalse .short ⟨5⟩⟩] ++ List.replicate 40 ⟨⟨4⟩, .ldstr "x"⟩ ++
      [⟨⟨1⟩, .nop⟩, ⟨⟨5⟩, .ret⟩]
    (Body.shorten ⟨code, [], [], false, 6⟩).code =
      ⟨⟨1⟩, .branch .always .short ⟨5⟩⟩ :: code.tail := by
  decide +kernel

end CilSpan
