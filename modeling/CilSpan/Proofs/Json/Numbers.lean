import CilSpan.Json.Scanner
import CilSpan.Text
import Mathlib.Data.List.TakeDrop
import Mathlib.Data.List.TakeWhile

namespace CilSpan.Json

theorem natValue_toDigits (n : Nat) : natValue (Nat.toDigits 10 n) = n :=
  Nat.ofDigitChars_ten_toDigits

theorem exists_toDigits {n : Nat} (hn : 0 < n) :
    ∃ d cs, 0 < d ∧ d < 10 ∧ Nat.toDigits 10 n = d.digitChar :: cs := by
  induction n using Nat.strongRecOn with
  | ind n ih =>
    by_cases hlt : n < 10
    · exact ⟨n, [], hn, hlt, Nat.toDigits_of_lt_base hlt⟩
    · obtain ⟨d, cs, hd, hd', hcs⟩ := ih (n / 10) (by omega) (by omega)
      refine ⟨d, cs ++ [(n % 10).digitChar], hd, hd', ?_⟩
      rw [Nat.toDigits_of_base_le (by decide) (Nat.le_of_not_lt hlt), hcs, List.cons_append]

theorem isDigit_toDigits (n : Nat) : ∀ c ∈ Nat.toDigits 10 n, c.isDigit = true :=
  fun _ hc ↦ Nat.isDigit_of_mem_toDigits (by decide) (by decide) hc

theorem le_foldl_digits (n : Nat) (cs : List Char) :
    n ≤ cs.foldl (fun n c ↦ 10 * n + digitValue c) n := by
  induction cs generalizing n with
  | nil => exact Nat.le_refl n
  | cons c cs ih =>
    have hle := ih (10 * n + digitValue c)
    rw [List.foldl_cons]
    omega

theorem gather_eq {n : Nat} {cs : List Char}
    (h : cs.foldl (fun n c ↦ 10 * n + digitValue c) n < UInt64.size) :
    gather n cs = (cs.foldl (fun n c ↦ 10 * n + digitValue c) n, []) := by
  induction cs generalizing n with
  | nil => rfl
  | cons c cs ih =>
    have hgrown : 10 * n + digitValue c < UInt64.size :=
      Nat.lt_of_le_of_lt (le_foldl_digits _ cs) h
    simp only [gather, if_pos hgrown, List.foldl_cons]
    exact ih h

theorem ofText_toDigits {n : Nat} (hn : n < UInt64.size) :
    Scaled.ofText (Nat.toDigits 10 n) = ⟨n, 0⟩ := by
  have hspan : (Nat.toDigits 10 n).span Char.isDigit = (Nat.toDigits 10 n, []) := by
    rw [List.span_eq_takeWhile_dropWhile, List.takeWhile_eq_self_iff.2 (isDigit_toDigits n),
      List.dropWhile_eq_nil_iff.2 (isDigit_toDigits n)]
  have hvalue := natValue_toDigits n
  rw [natValue] at hvalue
  have hgather := gather_eq (hvalue.symm ▸ hn : _ < UInt64.size)
  rw [hvalue] at hgather
  simp only [Scaled.ofText, hspan, hgather, gather, exponentOf, List.length_nil]
  rfl

theorem round53_le (n : Nat) : round53 n ≤ 2 * n := by
  obtain rfl | hn := Nat.eq_zero_or_pos n
  · decide
  have hunit : 1 <<< (n.log2 + 1 - 53) ≤ n := by
    rw [Nat.one_shiftLeft]
    have hexp : n.log2 + 1 - 53 ≤ n.log2 := by omega
    exact Nat.le_trans (Nat.pow_le_pow_right Nat.two_pos hexp)
      (Nat.log2_self_le (Nat.ne_of_gt hn))
  have hquotient := Nat.div_mul_le_self n (1 <<< (n.log2 + 1 - 53))
  simp only [round53]
  split
  · rw [Nat.succ_mul]
    omega
  · omega

theorem isHuge_eq_false {n : Nat} (hn : n < UInt64.size) : Scaled.isHuge ⟨n, 0⟩ = false := by
  have hround := round53_le n
  have hbound : 2 * UInt64.size ≤ doubleBound := by decide +kernel
  have hlt : ¬doubleBound ≤ round53 n * round53 (Nat.pow 10 0) := by
    rw [show round53 (Nat.pow 10 0) = 1 by decide]
    omega
  simp only [Scaled.isHuge, Int.toNat_zero, decide_eq_false hlt]
  simp

theorem wholeToken_ofNat {n : Nat} (hn : n < UInt64.size) :
    wholeToken (Nat.toDigits 10 n) = .int n := by
  have hhead : ∀ cs, Nat.toDigits 10 n ≠ '-' :: cs := fun cs hcs ↦
    nomatch isDigit_toDigits n '-' (hcs ▸ List.mem_cons_self)
  have hhuge : isHuge (Nat.toDigits 10 n) = false := by
    unfold isHuge
    split
    · rename_i h
      exact (hhead _ h).elim
    · rw [ofText_toDigits hn, isHuge_eq_false hn]
  unfold wholeToken
  rw [hhuge, if_neg Bool.false_ne_true]
  split
  · rename_i h
    exact (hhead _ h).elim
  · rename_i h
    exact (hhead _ h).elim
  · rw [natValue_toDigits]

theorem wholeToken_neg {n : Nat} (hn : n < UInt64.size) (hpos : 0 < n) :
    wholeToken ('-' :: Nat.toDigits 10 n) = .int (-n) := by
  have hhuge : isHuge ('-' :: Nat.toDigits 10 n) = false := by
    rw [isHuge, ofText_toDigits hn, isHuge_eq_false hn]
  have hvalue := natValue_toDigits n
  unfold wholeToken
  rw [hhuge, if_neg Bool.false_ne_true]
  split
  · rename_i hzero
    rw [List.tail_eq_of_cons_eq hzero] at hvalue
    exact absurd hvalue (Nat.ne_of_lt hpos)
  · rename_i hdigits
    rw [← List.tail_eq_of_cons_eq hdigits, hvalue]
  · rename_i hminus
    exact (hminus _ rfl).elim

end CilSpan.Json
