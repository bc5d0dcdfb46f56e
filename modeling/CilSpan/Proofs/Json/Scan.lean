import CilSpan.Json.Printer
import CilSpan.Proofs.Json.Numbers
import Mathlib.Tactic.IntervalCases

namespace CilSpan.Json

variable {text text' : List Char} {found tokens tokens' : List Token} {rest done : List Char}
  {mode mode' : Mode}

theorem scanFrom_cons {c : Char} (h : step mode c = some (tokens, mode')) (cs : List Char) :
    scanFrom found mode (c :: cs) = scanFrom (tokens.reverse ++ found) mode' cs := by
  rw [scanFrom, h]

/-- In front of `rest`, a text gives the tokens and nothing is left to be read. -/
def Scans (text : List Char) (tokens : List Token) (rest : List Char) : Prop :=
  ∀ found, scanFrom found .idle (text ++ rest) = scanFrom (tokens.reverse ++ found) .idle rest

namespace Scans

theorem append (h : Scans text tokens (text' ++ rest)) (h' : Scans text' tokens' rest) :
    Scans (text ++ text') (tokens ++ tokens') rest := by
  intro found
  rw [List.append_assoc, h, h', List.reverse_append, List.append_assoc]

theorem blank {c : Char} (hc : step .idle c = some ([], .idle)) (h : Scans text tokens rest) :
    Scans (c :: text) tokens rest :=
  fun found ↦ (scanFrom_cons hc (text ++ rest)).trans (h found)

theorem mark {c : Char} {token : Token} (hc : step .idle c = some ([token], .idle))
    (h : Scans text tokens rest) : Scans (c :: text) (token :: tokens) rest := by
  intro found
  rw [List.cons_append, scanFrom_cons hc, h]
  simp only [List.reverse_cons, List.reverse_nil, List.nil_append, List.append_assoc]

theorem nil (rest : List Char) : Scans [] [] rest := fun _ ↦ rfl

theorem newLine (level : Nat) (h : Scans text tokens rest) :
    Scans (Json.newLine level ++ text) tokens rest := by
  refine blank rfl ?_
  generalize 2 * level = n
  induction n with
  | zero => exact h
  | succ n ih => exact blank rfl ih

end Scans

def Delimited (rest : List Char) : Prop :=
  ∀ c cs, rest = c :: cs → ∀ part : NumberPart, part.next? c = none

theorem delimited_cons {c : Char} (h : ∀ part : NumberPart, part.next? c = none)
    (cs : List Char) : Delimited (c :: cs) := by
  rintro _ _ ⟨rfl, rfl⟩
  exact h

theorem next?_comma (part : NumberPart) : part.next? ',' = none := by cases part <;> decide
theorem next?_newLine (part : NumberPart) : part.next? '\n' = none := by cases part <;> decide
theorem next?_closeArr (part : NumberPart) : part.next? ']' = none := by cases part <;> decide
theorem next?_closeObj (part : NumberPart) : part.next? '\x7d' = none := by cases part <;> decide

theorem scanFrom_number_end {part : NumberPart} {token : Token}
    (hp : numberToken? part done = some token) (h : Delimited rest) :
    scanFrom found (.number part done) rest = scanFrom (token :: found) .idle rest := by
  cases rest with
  | nil => simp [scanFrom, finish, hp]
  | cons c cs =>
    simp only [scanFrom, step, h c cs rfl part, hp]
    cases start c with
    | none => rfl
    | some next => simp

theorem scanFrom_whole {digits : List Char} (hd : ∀ c ∈ digits, c.isDigit = true) :
    scanFrom found (.number .whole done) (digits ++ rest) =
      scanFrom found (.number .whole (digits.reverse ++ done)) rest := by
  induction digits generalizing done with
  | nil => rfl
  | cons c cs ih =>
    obtain ⟨hc, hcs⟩ := List.forall_mem_cons.1 hd
    have hstep : step (.number .whole done) c = some ([], .number .whole (c :: done)) := by
      simp only [step, NumberPart.next?, if_pos hc]
    rw [List.cons_append, scanFrom_cons hstep, List.reverse_cons, List.append_assoc]
    exact ih hcs

/-- Digits are read the same way from the start and behind a sign. -/
theorem scanFrom_toDigits (n : Nat) (found : List Token) (mode : Mode) (done : List Char)
    (hzero : step mode '0' = some ([], .number .zero ('0' :: done)))
    (hdigit : ∀ d, 0 < d → d < 10 →
      step mode d.digitChar = some ([], .number .whole (d.digitChar :: done)))
    (hrest : Delimited rest) : scanFrom found mode (Nat.toDigits 10 n ++ rest) =
      scanFrom (wholeToken (done.reverse ++ Nat.toDigits 10 n) :: found) .idle rest := by
  obtain rfl | hn := Nat.eq_zero_or_pos n
  · rw [Nat.toDigits_zero, List.singleton_append, scanFrom_cons hzero]
    exact scanFrom_number_end (by simp [numberToken?]) hrest
  · obtain ⟨d, cs, hd, hd', hdigits⟩ := exists_toDigits hn
    have hcs : ∀ c ∈ cs, c.isDigit = true := fun c hc ↦
      isDigit_toDigits n c (hdigits ▸ List.mem_cons_of_mem _ hc)
    rw [hdigits, List.cons_append, scanFrom_cons (hdigit d hd hd'), scanFrom_whole hcs]
    exact scanFrom_number_end (by simp [numberToken?]) hrest

theorem start_digitChar {d : Nat} (hd : 0 < d) (hd' : d < 10) :
    start d.digitChar = some ([], .number .whole [d.digitChar]) := by
  interval_cases d <;> decide

theorem next?_sign_digitChar {d : Nat} (hd : 0 < d) (hd' : d < 10) :
    NumberPart.sign.next? d.digitChar = some .whole := by
  interval_cases d <;> decide

theorem scans_ofInt {n : Int} (hn : n.natAbs < UInt64.size) (hrest : Delimited rest) :
    Scans (Text.ofInt n).toList [.int n] rest := by
  intro found
  cases n with
  | ofNat n =>
    have hwhole : wholeToken (Nat.toDigits 10 n) = .int n := wholeToken_ofNat hn
    have hscan := scanFrom_toDigits n found .idle [] rfl (fun _ ↦ start_digitChar) hrest
    rw [Text.ofInt, Text.ofNat, String.toList_ofList]
    exact hscan.trans (congrArg (fun t ↦ scanFrom (t :: found) .idle rest) hwhole)
  | negSucc n =>
    have hneg := wholeToken_neg hn n.succ_pos
    have hdigit : ∀ d, 0 < d → d < 10 → step (.number .sign ['-']) d.digitChar =
        some ([], .number .whole [d.digitChar, '-']) := by
      intro d hd hd'
      simp only [step, next?_sign_digitChar hd hd']
    have hscan := scanFrom_toDigits (n + 1) found (.number .sign ['-']) ['-'] rfl hdigit hrest
    rw [Text.ofInt, String.toList_ofList]
    exact hscan.trans (congrArg (fun t ↦ scanFrom (t :: found) .idle rest) hneg)

theorem exists_hex4 {n : Nat} (hn : n < 0x20) : ∃ a b x y,
    (Text.hex4 n).toList = ['0', '0', a, b] ∧ hexValue? a = some x ∧ hexValue? b = some y ∧
      16 * x + y = n := by
  interval_cases n <;> exact ⟨_, _, _, _, rfl, rfl, rfl, rfl⟩

theorem scanFrom_control {c : Char} (hc : c.toNat < 0x20) :
    scanFrom found (.text done) ('\\' :: 'u' :: (Text.hex4 c.toNat).toList ++ rest) =
      scanFrom found (.text (c :: done)) rest := by
  obtain ⟨a, b, x, y, htext, ha, hb, hn⟩ := exists_hex4 hc
  have hvalue : 16 * (16 * (16 * (16 * 0 + 0) + 0) + x) + y = c.toNat := by omega
  have hhigh : isHigh c.toNat = false := by simp [isHigh]; omega
  have hlow : isLow c.toNat = false := by simp [isLow]; omega
  have hend : step (.unit done none 1 (16 * (16 * (16 * 0 + 0) + 0) + x)) b =
      some ([], .text (c :: done)) := by
    simp only [step, hb, Option.bind_eq_bind, Option.bind_some, if_true, hvalue, endUnit, hhigh,
      hlow, Bool.false_eq_true, if_false, Char.ofNat_toNat]
    rfl
  have hthird : step (.unit done none 2 (16 * (16 * 0 + 0) + 0)) a =
      some ([], .unit done none 1 (16 * (16 * (16 * 0 + 0) + 0) + x)) := by
    simp only [step, ha]
    rfl
  -- Up to the third digit all characters are known, so the scan computes.
  rw [htext]
  exact (scanFrom_cons hthird (b :: rest)).trans (scanFrom_cons hend rest)

theorem scanFrom_escapedChar (c : Char) : scanFrom found (.text done) (escapedChar c ++ rest) =
    scanFrom found (.text (c :: done)) rest := by
  unfold escapedChar
  split_ifs with hquote hslash hback hfeed hline hreturn htab hcontrol
  · rw [hquote]; rfl
  · rw [hslash]; rfl
  · rw [hback]; rfl
  · rw [hfeed]; rfl
  · rw [hline]; rfl
  · rw [hreturn]; rfl
  · rw [htab]; rfl
  · exact scanFrom_control hcontrol
  · have hstep : step (.text done) c = some ([], .text (c :: done)) := by
      simp only [step, if_neg hquote, if_neg hslash, if_neg hcontrol]
    exact scanFrom_cons hstep rest

theorem scans_stringText (s : String) (rest : List Char) :
    Scans (stringText s) [.str s] rest := by
  have hchars : ∀ (cs done : List Char) (found : List Token),
      scanFrom found (.text done) (cs.flatMap escapedChar ++ '"' :: rest) =
        scanFrom (.str (String.ofList (done.reverse ++ cs)) :: found) .idle rest := by
    intro cs
    induction cs with
    | nil =>
      intro done found
      simp [scanFrom, step]
    | cons c cs ih =>
      intro done found
      rw [List.flatMap_cons, List.append_assoc, scanFrom_escapedChar, ih, List.reverse_cons,
        List.append_assoc]
      rfl
  intro found
  have hs := hchars s.toList [] found
  rw [List.reverse_nil, List.nil_append, String.ofList_toList] at hs
  rw [stringText, List.append_assoc]
  exact hs

end CilSpan.Json
