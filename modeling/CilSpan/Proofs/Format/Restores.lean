import CilSpan.Json.Record
import CilSpan.Proofs.Json.Parse
import Mathlib.Data.List.Nodup

namespace CilSpan

namespace Json

variable {j : Json} {js : List Json} {ms : List (String × Json)} {n : Nat}

theorem plainItems_iff : plainItems js = true ↔ ∀ j ∈ js, j.plain = true := by
  induction js with
  | nil => simp [plainItems]
  | cons j js ih => simp [plainItems, ih]

theorem plainMembers_iff : plainMembers ms = true ↔ ∀ m ∈ ms, m.2.plain = true := by
  induction ms with
  | nil => simp [plainMembers]
  | cons m ms ih =>
    obtain ⟨key, j⟩ := m
    simp [plainMembers, plainMember, ih]

theorem depthItems_le : depthItems js ≤ n ↔ ∀ j ∈ js, j.depth ≤ n := by
  induction js with
  | nil => simp [depthItems]
  | cons j js ih => simp [depthItems, ih]

theorem depthMembers_le : depthMembers ms ≤ n ↔ ∀ m ∈ ms, m.2.depth ≤ n := by
  induction ms with
  | nil => simp [depthMembers]
  | cons m ms ih =>
    obtain ⟨key, j⟩ := m
    simp [depthMembers, depthMember, ih]

def Fits (levels : Nat) (j : Json) : Prop := j.plain = true ∧ j.depth ≤ levels

theorem Fits.mono {m n : Nat} (h : Fits m j) (hmn : m ≤ n) : Fits n j := ⟨h.1, h.2.trans hmn⟩

theorem fits_arr : Fits (n + 1) (.arr js) ↔ ∀ j ∈ js, Fits n j := by
  simp only [Fits, plain, depth, plainItems_iff, Nat.add_le_add_iff_right, depthItems_le,
    forall_and]

theorem fits_obj : Fits (n + 1) (.obj ms) ↔ ∀ m ∈ ms, Fits n m.2 := by
  simp only [Fits, plain, depth, plainMembers_iff, Nat.add_le_add_iff_right, depthMembers_le,
    forall_and]

theorem fits_str (s : String) : Fits n (.str s) := ⟨rfl, n.zero_le⟩

theorem fits_bool (b : Bool) : Fits n (.bool b) := ⟨rfl, n.zero_le⟩

theorem fits_null : Fits n .null := ⟨rfl, n.zero_le⟩

theorem fits_ofUInt16 (x : UInt16) : Fits n (ofUInt16 x) :=
  ⟨decide_eq_true (x.toNat_lt.trans (by decide)), n.zero_le⟩

theorem fits_ofUInt32 (x : UInt32) : Fits n (ofUInt32 x) :=
  ⟨decide_eq_true (x.toNat_lt.trans (by decide)), n.zero_le⟩

theorem fits_ofUInt64 (x : UInt64) : Fits n (ofUInt64 x) :=
  ⟨decide_eq_true x.toNat_lt, n.zero_le⟩

theorem fits_ofInt32 (x : Int32) : Fits n (ofInt32 x) := by
  have hmin := x.minValue_le_toInt
  have hmax := x.toInt_le
  have hsize : UInt64.size = 2 ^ 64 := rfl
  simp only [Int32.toInt_minValue, Int32.toInt_maxValue] at hmin hmax
  exact ⟨decide_eq_true (by omega), n.zero_le⟩

theorem nat?_of_lt {bound n : Nat} (h : n < bound) : nat? bound (.int n) = some n := if_pos h

theorem uint16?_ofUInt16 (x : UInt16) : (ofUInt16 x).uint16? = some x := by
  rw [ofUInt16, uint16?, nat?_of_lt x.toNat_lt, Option.map_some, UInt16.ofNat_toNat]

theorem uint32?_ofUInt32 (x : UInt32) : (ofUInt32 x).uint32? = some x := by
  rw [ofUInt32, uint32?, nat?_of_lt x.toNat_lt, Option.map_some, UInt32.ofNat_toNat]

theorem uint64?_ofUInt64 (x : UInt64) : (ofUInt64 x).uint64? = some x := by
  rw [ofUInt64, uint64?, nat?_of_lt x.toNat_lt, Option.map_some, UInt64.ofNat_toNat]

theorem int32?_ofInt32 (x : Int32) : (ofInt32 x).int32? = some x := by
  have hread : int32? (ofInt32 x) = some (Int32.ofInt x.toInt) :=
    if_pos ⟨x.minValue_le_toInt, x.toInt_le⟩
  rw [hread, Int32.ofInt_toInt]

theorem member?_of_mem (hd : (ms.map Prod.fst).Nodup) {m : String × Json} (hm : m ∈ ms) :
    member? m.1 ms = some m.2 := by
  induction ms with
  | nil => cases hm
  | cons m' ms ih =>
    obtain ⟨hnot, hd⟩ := List.nodup_cons.1 hd
    obtain rfl | hm := List.mem_cons.1 hm
    · rw [member?, List.find?_cons_of_pos (by simp), Option.map_some]
    · have hne : m'.1 ≠ m.1 := fun he ↦ hnot (he ▸ List.mem_map_of_mem hm)
      rw [member?, List.find?_cons_of_neg (by simpa using hne)]
      exact ih hd hm

theorem distinctKeys_of_nodup (hd : (ms.map Prod.fst).Nodup) (names : List String) :
    distinctKeys names ms = true := by
  refine List.all_eq_true.2 fun name _ ↦ decide_eq_true ?_
  have hcount := List.nodup_iff_count_le_one.1 hd name
  rw [List.count, List.countP_map, List.countP_eq_length_filter] at hcount
  exact hcount

/-- An object is a record of its members if no two have the same key. -/
theorem record?_obj {names : List String} (hn : ms.map Prod.fst = names) (hd : names.Nodup) :
    record? names (.obj ms) = some (ms.map fun m ↦ some m.2) := by
  subst hn
  rw [record?, if_pos (distinctKeys_of_nodup hd _), List.map_map]
  exact congrArg some (List.map_congr_left fun m hm ↦ member?_of_mem hd hm)

end Json

open Json

variable {α : Type} {write : α → Json} {read : Json → Option α} {levels : Nat}

/-- Whatever is written is read as what it was, and nested no deeper than so many levels. -/
structure Restores (write : α → Json) (read : Json → Option α) (levels : Nat) : Prop where
  back : ∀ x, read (write x) = some x
  fits : ∀ x, Fits levels (write x)

theorem option?_of_ne_null {j : Json} (h : j ≠ .null) :
    option? read (some j) = (read j).map some := by
  cases j with
  | null => exact (h rfl).elim
  | _ => rfl

theorem mapM_map_of_back {xs : List α} (h : ∀ x ∈ xs, read (write x) = some x) :
    (xs.map write).mapM read = some xs := by
  induction xs with
  | nil => rfl
  | cons x xs ih =>
    obtain ⟨hx, hxs⟩ := List.forall_mem_cons.1 h
    simp [hx, ih hxs]

namespace Restores

theorem list (h : Restores write read levels) :
    Restores (ofList write) (list? read) (levels + 1) where
  back _ := mapM_map_of_back fun x _ ↦ h.back x
  fits _ := fits_arr.2 (List.forall_mem_map.2 fun x _ ↦ h.fits x)

theorem str : Restores Json.str str? 0 where
  back _ := rfl
  fits := fits_str

theorem fits_le (h : Restores write read levels) (x : α) {n : Nat} (hn : levels ≤ n) :
    Fits n (write x) :=
  (h.fits x).mono hn

theorem option (h : Restores write read levels) (hnull : ∀ x, write x ≠ .null) (x : Option α) :
    option? read (some (ofOption write x)) = some x := by
  cases x with
  | none => rfl
  | some x => rw [ofOption, option?_of_ne_null (hnull x), h.back, Option.map_some]

end Restores

end CilSpan
