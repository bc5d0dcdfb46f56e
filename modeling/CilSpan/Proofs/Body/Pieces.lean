import CilSpan.Proofs.Body.Sound
import Mathlib.Order.Monotone.Basic

namespace CilSpan

def Body.Holds (b : Body) (n : Nat) (run : List Instr) : Prop :=
  ∀ k i, run[k]? = some i → b.code[n + k]? = some i

namespace Body.Holds

variable {b : Body} {n : Nat} {i : Instr} {run run' : List Instr}

theorem head (h : b.Holds n (i :: run)) : b.code[n]? = some i := h 0 i rfl

theorem tail (h : b.Holds n (i :: run)) : b.Holds (n + 1) run := by
  intro k j hj
  rw [Nat.add_assoc, Nat.add_comm 1 k]
  exact h (k + 1) j hj

theorem left (h : b.Holds n (run ++ run')) : b.Holds n run := by
  intro k i hi
  have hk := (List.getElem?_eq_some_iff.1 hi).1
  exact h k i (by rw [List.getElem?_append_left hk, hi])

theorem right (h : b.Holds n (run ++ run')) : b.Holds (n + run.length) run' := by
  intro k i hi
  rw [Nat.add_assoc]
  refine h (run.length + k) i ?_
  rw [List.getElem?_append_right (Nat.le_add_right _ _), Nat.add_sub_cancel_left, hi]

end Body.Holds

/-- What has become of one instruction. -/
structure Piece where
  ahead : List Instr
  main : Instr
  behind : List Instr

namespace Piece

def plain (i : Instr) : Piece := ⟨[], i, []⟩

def code (x : Piece) : List Instr := x.ahead ++ x.main :: x.behind

theorem length_code (x : Piece) : x.code.length = x.ahead.length + 1 + x.behind.length := by
  simp [code]; omega

def putAhead (run : List Instr) (x : Piece) : Piece := { x with ahead := run ++ x.ahead }

theorem code_putAhead (run : List Instr) (x : Piece) : (x.putAhead run).code = run ++ x.code := by
  simp [putAhead, code]

end Piece

def rebuild (xs : List Piece) (tail : List Instr) : List Instr := xs.flatMap Piece.code ++ tail

def arrival : List Piece → Nat → Nat
  | [], n => n
  | _ :: _, 0 => 0
  | x :: xs, n + 1 => x.code.length + arrival xs n

def place : List Piece → Nat → Nat
  | [], n => n
  | x :: _, 0 => x.ahead.length
  | x :: xs, n + 1 => x.code.length + place xs n

variable {xs : List Piece} {tail : List Instr} {x : Piece} {n k : Nat}

@[simp] theorem rebuild_cons : rebuild (x :: xs) tail = x.code ++ rebuild xs tail := by
  simp [rebuild]

theorem rebuild_nil_append : rebuild xs [] ++ tail = rebuild xs tail := by
  simp [rebuild]

theorem rebuild_plain (code : List Instr) : rebuild (code.map .plain) tail = code ++ tail := by
  induction code with
  | nil => rfl
  | cons i is ih =>
    simp only [List.map_cons, rebuild_cons, ih]
    rfl

@[simp] theorem arrival_zero : arrival xs 0 = 0 := by cases xs <;> rfl

theorem arrival_plain (code : List Instr) (n : Nat) : arrival (code.map .plain) n = n := by
  induction code generalizing n with
  | nil => rfl
  | cons i is ih =>
    cases n with
    | zero => rfl
    | succ n =>
      simp only [List.map_cons, arrival, ih, Piece.length_code, Piece.plain, List.length_nil]
      omega

theorem arrival_of_length_le (hn : xs.length ≤ n) : arrival xs n = place xs n := by
  induction xs generalizing n with
  | nil => rfl
  | cons y ys ih =>
    cases n with
    | zero => simp at hn
    | succ n => simp only [arrival, place, ih (n := n) (by simpa using hn)]

theorem place_eq_arrival (hx : xs[n]? = some x) : place xs n = arrival xs n + x.ahead.length := by
  induction xs generalizing n with
  | nil => simp at hx
  | cons y ys ih =>
    cases n with
    | zero =>
      obtain rfl : y = x := by simpa using hx
      simp only [place, arrival, Nat.zero_add]
    | succ n => simp only [place, arrival, ih (by simpa using hx), Nat.add_assoc]

theorem arrival_succ (hx : xs[n]? = some x) :
    arrival xs (n + 1) = place xs n + 1 + x.behind.length := by
  induction xs generalizing n with
  | nil => simp at hx
  | cons y ys ih =>
    cases n with
    | zero =>
      obtain rfl : y = x := by simpa using hx
      cases ys <;> simp only [place, arrival, Piece.length_code] <;> rfl
    | succ n =>
      have h := ih (by simpa using hx)
      simp only [place, arrival, h]
      omega

theorem arrival_length : arrival xs xs.length = (rebuild xs []).length := by
  induction xs with
  | nil => rfl
  | cons y ys ih => simp [arrival, ih]

theorem arrival_le_place (xs : List Piece) (n : Nat) : arrival xs n ≤ place xs n := by
  induction xs generalizing n with
  | nil => exact le_refl n
  | cons y ys ih =>
    cases n with
    | zero => exact Nat.zero_le _
    | succ n => exact Nat.add_le_add_left (ih n) _

theorem place_lt_succ (xs : List Piece) (n : Nat) : place xs n < place xs (n + 1) := by
  induction xs generalizing n with
  | nil => simp [place]
  | cons y ys ih =>
    cases n with
    | zero => simp only [place, Piece.length_code]; omega
    | succ n => simpa only [place, Nat.add_lt_add_iff_left] using ih n

theorem strictMono_place (xs : List Piece) : StrictMono (place xs) :=
  strictMono_nat_of_lt_succ (place_lt_succ xs)

theorem place_of_length_le (hn : xs.length ≤ n) :
    place xs n = (rebuild xs []).length + (n - xs.length) := by
  induction xs generalizing n with
  | nil => simp [place, rebuild]
  | cons y ys ih =>
    cases n with
    | zero => simp at hn
    | succ n =>
      have h := ih (n := n) (by simpa using hn)
      simp only [place, h, rebuild_cons, List.length_append, List.length_cons]
      omega

theorem getElem?_ahead (hx : xs[n]? = some x) (hk : k < x.ahead.length) :
    (rebuild xs tail)[arrival xs n + k]? = x.ahead[k]? := by
  induction xs generalizing n with
  | nil => simp at hx
  | cons y ys ih =>
    cases n with
    | zero =>
      obtain rfl : y = x := by simpa using hx
      simp only [rebuild_cons, arrival, Nat.zero_add, Piece.code, List.append_assoc]
      rw [List.getElem?_append_left hk]
    | succ n =>
      simp only [rebuild_cons, arrival]
      rw [List.getElem?_append_right (by omega), show y.code.length + arrival ys n + k -
        y.code.length = arrival ys n + k by omega]
      exact ih (by simpa using hx)

theorem getElem?_place (hx : xs[n]? = some x) (hk : k ≤ x.behind.length) :
    (rebuild xs tail)[place xs n + k]? = (x.main :: x.behind)[k]? := by
  induction xs generalizing n with
  | nil => simp at hx
  | cons y ys ih =>
    cases n with
    | zero =>
      obtain rfl : y = x := by simpa using hx
      simp only [rebuild_cons, place, Piece.code, List.append_assoc]
      rw [List.getElem?_append_right (by omega), Nat.add_sub_cancel_left,
        List.getElem?_append_left (by simp only [List.length_cons]; omega)]
    | succ n =>
      simp only [rebuild_cons, place]
      rw [List.getElem?_append_right (by omega), show y.code.length + place ys n + k -
        y.code.length = place ys n + k by omega]
      exact ih (by simpa using hx)

theorem holds_ahead {b : Body} (hb : b.code = rebuild xs tail) (hx : xs[n]? = some x) :
    b.Holds (arrival xs n) x.ahead := by
  intro k i hi
  rw [hb, getElem?_ahead hx (List.getElem?_eq_some_iff.1 hi).1, hi]

theorem holds_place {b : Body} (hb : b.code = rebuild xs tail) (hx : xs[n]? = some x) :
    b.Holds (place xs n) (x.main :: x.behind) := by
  intro k i hi
  have hk : k < (x.main :: x.behind).length := (List.getElem?_eq_some_iff.1 hi).1
  rw [List.length_cons] at hk
  rw [hb, getElem?_place hx (Nat.le_of_lt_succ hk), hi]

theorem getElem?_main (hx : xs[n]? = some x) :
    (rebuild xs tail)[place xs n]? = some x.main :=
  getElem?_place hx (Nat.zero_le _)

theorem arrival_lt_length (hn : n < xs.length) : arrival xs n < (rebuild xs []).length := by
  have hmain : (rebuild xs [])[place xs n]? = some xs[n].main :=
    getElem?_main (List.getElem?_eq_getElem hn)
  exact (arrival_le_place xs n).trans_lt (List.getElem?_eq_some_iff.1 hmain).1

theorem getElem?_tail : (rebuild xs tail)[(rebuild xs []).length + k]? = tail[k]? := by
  rw [← rebuild_nil_append, List.getElem?_append_right (by omega), Nat.add_sub_cancel_left]

theorem labels_sublist_rebuild (xs : List Piece) (tail : List Instr) :
    (xs.map fun x ↦ x.main.label).Sublist ((rebuild xs tail).map Instr.label) := by
  induction xs with
  | nil => exact List.nil_sublist _
  | cons x xs ih =>
    rw [rebuild_cons, Piece.code, List.append_assoc, List.map_append, List.cons_append]
    refine (List.Sublist.cons_cons x.main.label ?_).trans (List.sublist_append_right _ _)
    rw [List.map_append]
    exact ih.trans (List.sublist_append_right _ _)

/-- Splicing a run in where control arrives at an old instruction puts it in front of all that
stands there already. -/
theorem splice_arrival (run : List Instr) (hn : n < xs.length) :
    (rebuild xs tail).take (arrival xs n) ++ run ++ (rebuild xs tail).drop (arrival xs n) =
      rebuild (xs.modify n (·.putAhead run)) tail := by
  induction xs generalizing n with
  | nil => simp at hn
  | cons y ys ih =>
    cases n with
    | zero => simp [arrival, Piece.code_putAhead]
    | succ n =>
      have h := ih (n := n) (by simpa using hn)
      simp only [rebuild_cons, arrival, List.modify_succ_cons, ← h, List.take_length_add_append,
        List.drop_length_add_append, List.append_assoc]

def inserted (xs : List Piece) : List Instr := xs.flatMap fun x ↦ x.ahead ++ x.behind

theorem count_rebuild (l : Label) (xs : List Piece) : ((rebuild xs []).map Instr.label).count l =
    (xs.map fun x ↦ x.main.label).count l + ((inserted xs).map Instr.label).count l := by
  induction xs with
  | nil => rfl
  | cons x xs ih =>
    simp only [rebuild_cons, inserted, Piece.code, List.map_append, List.map_cons, List.count_append,
      List.count_cons, List.flatMap_cons] at ih ⊢
    omega

end CilSpan
