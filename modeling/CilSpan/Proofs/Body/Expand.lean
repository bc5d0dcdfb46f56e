import CilSpan.Body.Edit
import CilSpan.Proofs.Body.Pieces
import Mathlib.Data.List.Forall2
import Mathlib.Data.List.Nodup

namespace CilSpan

namespace Body

theorem createAll_append (b : Body) (ops ops' : List Op) :
    b.createAll (ops ++ ops') = ((b.createAll ops).1 ++ ((b.createAll ops).2.createAll ops').1,
      ((b.createAll ops).2.createAll ops').2) := by
  induction ops generalizing b with
  | nil => rfl
  | cons op ops ih => simp only [List.cons_append, createAll, ih]

theorem createAll_congr {b c : Body} (h : b.next = c.next) (ops : List Op) :
    (b.createAll ops).1 = (c.createAll ops).1 := by
  induction ops generalizing b c with
  | nil => rfl
  | cons op ops ih =>
    simp only [createAll, create, freshLabel, h]
    exact congrArg _ (ih (by simp))

theorem size_createAll (b : Body) (ops : List Op) : (b.createAll ops).2.size = b.size := by
  rw [createAll_eq]
  rfl

theorem insert_of_le {b : Body} {index : Nat} (h : index ≤ b.size) (ops : List Op) :
    b.insert index ops = (.ok ((b.createAll ops).1.map Instr.label), { b with
      code := b.code.take index ++ (b.createAll ops).1 ++ b.code.drop index
      next := (b.createAll ops).2.next }) := by
  simp only [Body.insert, splice, size_createAll, if_pos h]
  simp only [createAll_eq]

theorem insert_of_lt {b : Body} {index : Nat} (h : b.size < index) (ops : List Op) :
    b.insert index ops = (.error ⟨index, b.size⟩, { b with next := (b.createAll ops).2.next }) := by
  simp only [Body.insert, splice, size_createAll, if_neg (Nat.not_le_of_lt h)]
  simp only [createAll_eq]

theorem insertAhead_of_cut {b : Body} {l : Label} {before after : List Instr} {op : Op}
    (h : cut? l b.code = some (before, op, after)) (ops : List Op) :
    b.insertAhead l ops = (some (b.createAll ops).2.freshLabel, { b with
      code := before ++ ⟨l, .nop⟩ :: (b.createAll ops).1 ++
        ⟨(b.createAll ops).2.freshLabel, op⟩ :: after
      next := (b.createAll ops).2.next + 1 }) := by
  simp only [insertAhead, h, createAll_eq]
  rfl

def expand (main : Op → Op) (behind : Op → List Op) (b : Body) (l : Label) : Body :=
  match cut? l b.code with
  | none => b
  | some (before, op, after) =>
    let (run, b) := b.createAll (behind op)
    { b with code := before ++ ⟨l, main op⟩ :: run ++ after }

theorem setOp_eq_expand (b : Body) (l : Label) (op : Op) :
    b.setOp l op = b.expand (fun _ ↦ op) (fun _ ↦ []) l := by
  simp only [setOp, expand]
  cases cut? l b.code with
  | none => rfl
  | some c => simp [createAll]

theorem insertAhead_eq_expand (b : Body) (l : Label) (ops : List Op) :
    (b.insertAhead l ops).2 = b.expand (fun _ ↦ .nop) (fun op ↦ ops ++ [op]) l := by
  simp only [insertAhead, expand]
  cases cut? l b.code with
  | none => rfl
  | some c => simp [createAll_append, createAll]

theorem insertAfter_setOp_eq_expand (b : Body) (l : Label) (op : Op) (ops : List Op) :
    (b.setOp l op).insertAfter l ops = b.expand (fun _ ↦ op) (fun _ ↦ ops) l := by
  simp only [setOp, expand]
  cases h : cut? l b.code with
  | none => simp only [insertAfter, h]
  | some c =>
    obtain ⟨before, old, after⟩ := c
    have hc : cut? l (before ++ ⟨l, op⟩ :: after) = some (before, op, after) :=
      cut?_eq_some.2 ⟨rfl, (cut?_eq_some.1 h).2⟩
    have hr := createAll_congr (b := { b with code := before ++ ⟨l, op⟩ :: after }) (c := b) rfl ops
    simp only [insertAfter, hc, createAll_eq, hr]

variable (main : Op → Op) (behind : Op → List Op)

theorem expand_of_code {b : Body} {before after : List Instr} {l : Label} {op : Op}
    (hb : b.code = before ++ ⟨l, op⟩ :: after) (hl : ∀ i ∈ before, i.label ≠ l) :
    ∃ run, run.map Instr.op = behind op ∧
      (b.expand main behind l).code = before ++ ⟨l, main op⟩ :: run ++ after := by
  have hc := cut?_eq_some.2 ⟨hb, hl⟩
  exact ⟨(b.createAll (behind op)).1, map_op_createAll b _, by simp only [expand, hc]⟩

theorem expand_frame (b : Body) (l : Label) : ∃ code next,
    b.expand main behind l = { b with code, next } := by
  simp only [expand]
  cases cut? l b.code with
  | none => exact ⟨b.code, b.next, rfl⟩
  | some c => exact ⟨_, _, by simp only [createAll_eq]; rfl⟩

theorem foldl_expand_frame (b : Body) (ls : List Label) : ∃ code next,
    ls.foldl (expand main behind) b = { b with code, next } := by
  induction ls generalizing b with
  | nil => exact ⟨b.code, b.next, rfl⟩
  | cons l ls ih =>
    obtain ⟨code, next, h⟩ := expand_frame main behind b l
    obtain ⟨code', next', h'⟩ := ih (b.expand main behind l)
    exact ⟨code', next', by rw [List.foldl_cons, h', h]⟩

theorem labels_expand_sublist (b : Body) (l : Label) :
    b.labels.Sublist (b.expand main behind l).labels := by
  simp only [expand]
  cases h : cut? l b.code with
  | none => exact List.Sublist.refl _
  | some c =>
    obtain ⟨before, op, after⟩ := c
    simp only [labels, (cut?_eq_some.1 h).1, List.map_append, List.map_cons, List.append_assoc,
      List.cons_append]
    exact ((List.sublist_append_right _ _).cons_cons _).append_left _

theorem labels_foldl_expand_sublist (b : Body) (ls : List Label) :
    b.labels.Sublist (ls.foldl (expand main behind) b).labels := by
  induction ls generalizing b with
  | nil => exact List.Sublist.refl _
  | cons l ls ih => exact (labels_expand_sublist main behind b l).trans (ih _)

end Body

def Piece.Grown (main : Op → Op) (behind : Op → List Op) (sel : Instr → Bool) (x y : Piece) :
    Prop :=
  if sel x.main then
    y.ahead = x.ahead ∧ y.main = ⟨x.main.label, main x.main.op⟩ ∧
      y.behind.map Instr.op = behind x.main.op
  else y = x

theorem Body.exists_foldl_expand {main : Op → Op} {behind : Op → List Op} {sel : Instr → Bool}
    {b : Body} {head tail : List Instr} {xs : List Piece}
    (hb : b.code = head ++ rebuild xs tail) (hx : ∀ x ∈ xs, x.behind = [])
    (hnd : ((((xs.map Piece.main).filter sel).map Instr.label).foldl
      (expand main behind) b).labels.Nodup) :
    ∃ ys, ((((xs.map Piece.main).filter sel).map Instr.label).foldl (expand main behind) b).code =
      head ++ rebuild ys tail ∧ List.Forall₂ (Piece.Grown main behind sel) xs ys := by
  induction xs generalizing b head with
  | nil => exact ⟨[], hb, .nil⟩
  | cons x xs ih =>
    obtain ⟨ahead, ⟨l, op⟩, rest⟩ := x
    obtain rfl : rest = [] := hx ⟨ahead, ⟨l, op⟩, rest⟩ (by simp)
    have hx' : ∀ y ∈ xs, y.behind = [] := fun y hy ↦ hx y (by simp [hy])
    by_cases hs : sel ⟨l, op⟩ = true
    · simp only [List.map_cons, List.filter_cons, hs, if_true, List.foldl_cons] at hnd ⊢
      have hb' : b.code = (head ++ ahead) ++ ⟨l, op⟩ :: rebuild xs tail := by
        simpa [Piece.code] using hb
      have hl : ∀ i ∈ head ++ ahead, i.label ≠ l := by
        have h := hnd.sublist ((Body.labels_expand_sublist main behind b l).trans
          (Body.labels_foldl_expand_sublist main behind _ _))
        simp only [labels, hb', List.map_append, List.map_cons, List.nodup_append] at h
        intro i hi
        exact h.2.2 i.label (by simpa using List.mem_map_of_mem hi) l (by simp)
      obtain ⟨run, hrun, hc⟩ := expand_of_code main behind hb' hl
      have hc' : (b.expand main behind l).code =
          (head ++ (Piece.mk ahead ⟨l, main op⟩ run).code) ++ rebuild xs tail := by
        simp [hc, Piece.code]
      obtain ⟨ys, hys, hf⟩ := ih hc' hx' hnd
      refine ⟨⟨ahead, ⟨l, main op⟩, run⟩ :: ys, by simp [hys], .cons ?_ hf⟩
      simp [Piece.Grown, hs, hrun]
    · simp only [List.map_cons, List.filter_cons, hs] at hnd ⊢
      have hb' : b.code = (head ++ (Piece.mk ahead ⟨l, op⟩ []).code) ++ rebuild xs tail := by
        simp [hb]
      obtain ⟨ys, hys, hf⟩ := ih hb' hx' hnd
      exact ⟨⟨ahead, ⟨l, op⟩, []⟩ :: ys, by simpa using hys, .cons (by simp [Piece.Grown, hs]) hf⟩

/-- The pieces that code has become: each instruction now does `main` and has `behind` behind it,
and the one at `start` has `front` in front of it. -/
structure Spliced (start : Nat) (front : List Op) (main : Instr → Op) (behind : Instr → List Op)
    (code : List Instr) (xs : List Piece) : Prop where
  length : xs.length = code.length
  piece : ∀ n i, code[n]? = some i → ∃ x, xs[n]? = some x ∧ x.main = ⟨i.label, main i⟩ ∧
    x.behind.map Instr.op = behind i ∧ x.ahead.map Instr.op = if n = start then front else []

namespace Spliced

variable {start : Nat} {front : List Op} {main : Instr → Op} {behind : Instr → List Op}
  {code : List Instr} {xs ys : List Piece}

theorem plain (start : Nat) (code : List Instr) :
    Spliced start [] Instr.op (fun _ ↦ []) code (code.map .plain) where
  length := List.length_map _
  piece n i h := ⟨.plain i, by simp [h], rfl, rfl, by simp [Piece.plain]⟩

theorem map_main (h : Spliced start front Instr.op behind code xs) :
    xs.map Piece.main = code := by
  apply List.ext_getElem?
  intro n
  cases hc : code[n]? with
  | none => simpa [h.length] using hc
  | some i =>
    obtain ⟨x, hx, hm, -⟩ := h.piece n i hc
    simp [hx, hm]

theorem map_label (h : Spliced start front main behind code xs) :
    (xs.map fun x ↦ x.main.label) = code.map Instr.label := by
  apply List.ext_getElem?
  intro n
  cases hc : code[n]? with
  | none =>
    have hx : xs[n]? = none := by
      rw [List.getElem?_eq_none_iff, h.length]
      exact List.getElem?_eq_none_iff.1 hc
    simp [hx, hc]
  | some i =>
    obtain ⟨x, hx, hm, -⟩ := h.piece n i hc
    simp [hx, hm, hc]

theorem label_not_mem (h : Spliced start front main behind code xs)
    (hn : ((rebuild xs []).map Instr.label).Nodup) {x : Piece} (hx : x ∈ xs) {i : Instr}
    (hi : i ∈ x.ahead ++ x.behind) : i.label ∉ code.map Instr.label := by
  intro hold
  have hcount := count_rebuild i.label xs
  have hone := List.nodup_iff_count_le_one.1 hn i.label
  have hnew : 0 < ((inserted xs).map Instr.label).count i.label :=
    List.count_pos_iff.2 (List.mem_map_of_mem (List.mem_flatMap.2 ⟨x, hx, hi⟩))
  rw [← h.map_label] at hold
  have hmain := List.count_pos_iff.2 hold
  omega

theorem behind_eq_nil (h : Spliced start front main (fun _ ↦ []) code xs) :
    ∀ x ∈ xs, x.behind = [] := by
  intro x hx
  obtain ⟨n, hn⟩ := List.getElem?_of_mem hx
  have hlt : n < code.length := h.length ▸ (List.getElem?_eq_some_iff.1 hn).1
  obtain ⟨y, hy, -, hb, -⟩ := h.piece n _ (List.getElem?_eq_getElem hlt)
  obtain rfl : x = y := Option.some_inj.1 (hn.symm.trans hy)
  simpa using hb

theorem putAhead (h : Spliced start [] main behind code xs) (run : List Instr) :
    Spliced start (run.map Instr.op) main behind code (xs.modify start (·.putAhead run)) where
  length := by simp [h.length]
  piece n i hi := by
    obtain ⟨x, hx, hm, hb, ha⟩ := h.piece n i hi
    have hnil : x.ahead = [] := by simpa using ha
    by_cases hn : n = start
    · subst hn
      exact ⟨x.putAhead run, by simp [hx], hm, hb,
        by simp [Piece.putAhead, hnil]⟩
    · exact ⟨x, by simp [hx, Ne.symm hn], hm, hb, by simp [hnil, hn]⟩

theorem grow {m : Op → Op} {f : Op → List Op} {sel : Instr → Bool}
    (h : Spliced start front Instr.op (fun _ ↦ []) code xs)
    (hf : List.Forall₂ (Piece.Grown m f sel) xs ys) :
    Spliced start front (fun i ↦ if sel i then m i.op else i.op)
      (fun i ↦ if sel i then f i.op else []) code ys where
  length := hf.length_eq.symm.trans h.length
  piece n i hi := by
    obtain ⟨x, hx, hm, hb, ha⟩ := h.piece n i hi
    obtain ⟨hn, rfl⟩ := List.getElem?_eq_some_iff.1 hx
    have hn' : n < ys.length := hf.length_eq ▸ hn
    have hg : Piece.Grown m f sel xs[n] ys[n] := hf.get hn hn'
    refine ⟨ys[n], List.getElem?_eq_getElem hn', ?_⟩
    obtain ⟨l, op⟩ := i
    simp only [Piece.Grown, hm] at hg
    split at hg
    · rename_i hs
      obtain ⟨h₁, h₂, h₃⟩ := hg
      exact ⟨by simp [h₂, hs], by simp [h₃, hs], by rw [h₁, ha]⟩
    · rename_i hs
      exact ⟨by simp [hg, hm, hs], by simpa [hg, hs] using hb, by rw [hg, ha]⟩

/-- Expanding the selected instructions one by one is one pass over all. -/
theorem foldl_expand {m : Op → Op} {f : Op → List Op} {sel : Instr → Bool} {b : Body}
    {tail : List Instr} (h : Spliced start front Instr.op (fun _ ↦ []) code xs)
    (hb : b.code = rebuild xs tail)
    (hn : ((((code.filter sel).map Instr.label).foldl
      (Body.expand m f) b).code.map Instr.label).Nodup) :
    ∃ ys, (((code.filter sel).map Instr.label).foldl (Body.expand m f) b).code =
        rebuild ys tail ∧
      Spliced start front (fun i ↦ if sel i then m i.op else i.op)
        (fun i ↦ if sel i then f i.op else []) code ys := by
  have hb' : b.code = [] ++ rebuild xs tail := by rw [hb, List.nil_append]
  obtain ⟨ys, hys, hf⟩ := Body.exists_foldl_expand hb' h.behind_eq_nil (h.map_main ▸ hn)
  rw [h.map_main, List.nil_append] at hys
  exact ⟨ys, hys, h.grow hf⟩

end Spliced

end CilSpan
