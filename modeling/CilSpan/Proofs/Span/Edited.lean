import CilSpan.Proofs.Layout.Tight
import CilSpan.Proofs.Span.BracketForm
import CilSpan.Proofs.Span.CorrelateForm

namespace CilSpan

namespace Body

def coming (b : Body) (n : Nat) : List Label := (List.range n).map fun k ↦ ⟨b.next + .ofNat k⟩

variable {b c : Body} {l : Label} {m n : Nat}

theorem mem_coming : l ∈ b.coming n ↔ ∃ k < n, l = ⟨b.next + .ofNat k⟩ := by
  simp only [coming, List.mem_map, List.mem_range, eq_comm]

theorem coming_mono (h : m ≤ n) (hl : l ∈ b.coming m) : l ∈ b.coming n := by
  obtain ⟨k, hk, rfl⟩ := mem_coming.1 hl
  exact mem_coming.2 ⟨k, Nat.lt_of_lt_of_le hk h, rfl⟩

theorem coming_of_next (h : c.next = b.next + .ofNat m) (hl : l ∈ c.coming n) :
    l ∈ b.coming (m + n) := by
  obtain ⟨k, hk, rfl⟩ := mem_coming.1 hl
  refine mem_coming.2 ⟨m + k, Nat.add_lt_add_left hk m, ?_⟩
  rw [h, UInt32.ofNat_add, UInt32.add_assoc]

theorem labels_createAll (b : Body) (ops : List Op) :
    (b.createAll ops).1.map Instr.label = b.coming ops.length := by
  induction ops generalizing b with
  | nil => rfl
  | cons op ops ih =>
    have hhead : (⟨b.next + .ofNat 0⟩ : Label) = b.freshLabel := by simp [freshLabel]
    simp only [createAll, create, List.map_cons, ih, coming, List.length_cons,
      List.range_succ_eq_map, List.map_map, hhead]
    refine congrArg _ (List.map_congr_left fun k _ ↦ ?_)
    rw [Function.comp_apply, Nat.succ_eq_add_one, UInt32.ofNat_add, UInt32.add_assoc,
      UInt32.add_comm 1]
    rfl

end Body

/-- What `b` has become by edits that have handed out at most `n` labels. -/
structure Edited (b : Body) (n : Nat) (c : Body) : Prop where
  next : ∃ k ≤ n, c.next = b.next + .ofNat k
  labels : ∀ l ∈ c.labels, l ∈ b.labels ∨ l ∈ b.coming n
  long : c.Long

namespace Edited

variable {b c d : Body} {n k : Nat} {l : Label} {ops : List Op}

theorem refl (h : b.Long) : Edited b 0 b :=
  ⟨⟨0, Nat.le_refl 0, by simp⟩, fun _ hl ↦ .inl hl, h⟩

theorem mono (h : Edited b n c) {m : Nat} (hnm : n ≤ m) : Edited b m c := by
  obtain ⟨k, hk, hnext⟩ := h.next
  exact ⟨⟨k, hk.trans hnm, hnext⟩, fun l hl ↦ (h.labels l hl).imp_right (Body.coming_mono hnm),
    h.long⟩

theorem congr (h : Edited b n c) (hcode : d.code = c.code) (hnext : d.next = c.next) :
    Edited b n d := by
  obtain ⟨k, hk, hk'⟩ := h.next
  refine ⟨⟨k, hk, hnext.trans hk'⟩, fun l hl ↦ h.labels l ?_, fun i hi ↦ h.long i (hcode ▸ hi)⟩
  rwa [Body.labels, ← hcode]

theorem mem_coming (h : Edited b n c) {m : Nat} (hl : l ∈ c.coming m) : l ∈ b.coming (n + m) := by
  obtain ⟨k, hk, hnext⟩ := h.next
  exact Body.coming_mono (Nat.add_le_add_right hk m) (Body.coming_of_next hnext hl)

/-- Only labels handed out so far, old code and new instructions that are no short branches. -/
theorem grow (h : Edited b n c) (ops : List Op) (hnext : d.next = (c.createAll ops).2.next)
    (hcode : ∀ i ∈ d.code, i.op.isShort = false ∧ (i.label ∈ c.labels ∨ i ∈ (c.createAll ops).1)) :
    Edited b (n + ops.length) d := by
  obtain ⟨k, hk, hk'⟩ := h.next
  refine ⟨⟨k + ops.length, Nat.add_le_add_right hk _, ?_⟩, fun l hl ↦ ?_, fun i hi ↦ (hcode i hi).1⟩
  · rw [hnext, Body.createAll_eq, hk', UInt32.ofNat_add, UInt32.add_assoc]
  · obtain ⟨i, hi, rfl⟩ := List.mem_map.1 hl
    obtain hold | hnew := (hcode i hi).2
    · exact (h.labels _ hold).imp_right (Body.coming_mono (Nat.le_add_right _ _))
    · have hfresh := List.mem_map_of_mem (f := Instr.label) hnew
      rw [Body.labels_createAll] at hfresh
      exact .inr (h.mem_coming hfresh)

theorem isShort_of_mem_createAll {i : Instr} (hops : ∀ op ∈ ops, op.isShort = false)
    (hi : i ∈ (c.createAll ops).1) : i.op.isShort = false := by
  have hop := List.mem_map_of_mem (f := Instr.op) hi
  rw [Body.map_op_createAll] at hop
  exact hops i.op hop

theorem insert (h : Edited b n c) {index : Nat} (hops : ∀ op ∈ ops, op.isShort = false)
    (hd : Edit.insert index ops c = .ok () d) : Edited b (n + ops.length) d := by
  have hd := Edit.insert_eq_ok hd
  refine h.grow ops (by rw [hd]) fun i hi ↦ ?_
  simp only [hd, List.mem_append] at hi
  have hold {i : Instr} (hi : i ∈ c.code) : i.op.isShort = false ∧
      (i.label ∈ c.labels ∨ i ∈ (c.createAll ops).1) :=
    ⟨h.long i hi, .inl (List.mem_map_of_mem hi)⟩
  obtain (hi | hi) | hi := hi
  · exact hold (List.mem_of_mem_take hi)
  · exact ⟨isShort_of_mem_createAll hops hi, .inr hi⟩
  · exact hold (List.mem_of_mem_drop hi)

theorem insertBeforeLast (h : Edited b n c) {count : Nat} (hops : ∀ op ∈ ops, op.isShort = false)
    (hd : Edit.insertBeforeLast count ops c = .ok () d) : Edited b (n + ops.length) d := by
  unfold Edit.insertBeforeLast at hd
  split at hd
  · exact h.insert hops hd
  · cases hd

theorem append (h : Edited b n c) {i : Instr} (hl : i.label ∈ b.coming n)
    (hi : i.op.isShort = false) : Edited b n (c.append [i]) := by
  refine ⟨h.next, fun l hl' ↦ ?_, fun j hj ↦ ?_⟩
  · simp only [Body.labels, Body.append, List.map_append, List.mem_append, List.map_cons,
      List.map_nil, List.mem_singleton] at hl'
    obtain hold | rfl := hl'
    · exact h.labels l hold
    · exact .inr hl
  · obtain hold | hnew := List.mem_append.1 hj
    · exact h.long j hold
    · rwa [List.mem_singleton.1 hnew]

theorem push (h : Edited b n c) {op : Op} (hop : op.isShort = false) :
    Edited b (n + 1) (c.push op).2 := by
  refine h.grow [op] rfl fun i hi ↦ ?_
  obtain hold | hnew := List.mem_append.1 hi
  · exact ⟨h.long i hold, .inl (List.mem_map_of_mem hold)⟩
  · exact ⟨by rwa [List.mem_singleton.1 hnew], .inr hnew⟩

theorem create (h : Edited b n c) : Edited b (n + 1) { c with next := c.next + 1 } ∧
    c.freshLabel ∈ b.coming (n + 1) := by
  refine ⟨h.grow [.nop] rfl fun i hi ↦ ⟨h.long i hi, .inl (List.mem_map_of_mem hi)⟩, ?_⟩
  exact h.mem_coming (Body.mem_coming.2 ⟨0, Nat.one_pos, by simp [Body.freshLabel]⟩)

variable {m : Op → Op} {f : Op → List Op}

theorem expand (h : Edited b n c) (hmain : ∀ op, (m op).isShort = false)
    (hbehind : ∀ op, op.isShort = false → ∀ o ∈ f op, o.isShort = false)
    (hk : ∀ op, (f op).length = k) (l : Label) : Edited b (n + k) (c.expand m f l) := by
  simp only [Body.expand]
  split
  · exact h.mono (Nat.le_add_right n k)
  · rename_i before op after hcut
    obtain ⟨hcode, -⟩ := cut?_eq_some.1 hcut
    have hold : ∀ i ∈ c.code, i.op.isShort = false ∧ i.label ∈ c.labels := fun i hi ↦
      ⟨h.long i hi, List.mem_map_of_mem hi⟩
    simp only [hcode, List.forall_mem_append, List.forall_mem_cons] at hold
    obtain ⟨hbefore, ⟨hop, hl⟩, hafter⟩ := hold
    rw [← hk op]
    refine h.grow (f op) rfl fun i hi ↦ ?_
    simp only [List.mem_append, List.mem_cons] at hi
    obtain (hi | rfl | hi) | hi := hi
    · exact (hbefore i hi).imp_right .inl
    · exact ⟨hmain op, .inl hl⟩
    · exact ⟨isShort_of_mem_createAll (hbehind op hop) hi, .inr hi⟩
    · exact (hafter i hi).imp_right .inl

theorem foldl_expand (h : Edited b n c) (hmain : ∀ op, (m op).isShort = false)
    (hbehind : ∀ op, op.isShort = false → ∀ o ∈ f op, o.isShort = false)
    (hk : ∀ op, (f op).length = k) (ls : List Label) :
    Edited b (n + k * ls.length) (ls.foldl (Body.expand m f) c) := by
  induction ls generalizing n c with
  | nil => exact h
  | cons l ls ih =>
    have hnext := ih (h.expand hmain hbehind hk l)
    rwa [List.length_cons, Nat.mul_succ, Nat.add_comm (k * ls.length), ← Nat.add_assoc]

end Edited

def Body.bracketDraw (b : Body) (result : TypeName) : Nat :=
  if result.isVoid then 6 else b.returns.length + 7

def Exits.draw (exits : Exits) : Nat := 3 + 4 * exits.completions.length

/-- What a body looks like that an instrumentation of `b` has accepted. -/
structure Accepted (b : Body) (n : Nat) (b' : Body) : Prop where
  shortened : ∃ c, Edited b n c ∧ b' = c.shorten
  sound : b'.Sound

/-- The labels of an accepted body are old ones or have been handed out for it. -/
theorem Accepted.mem_labels {b b' c : Body} {n : Nat} (h : Accepted b n b')
    (hlen : b'.lengthen = c.lengthen) {l : Label} (hl : l ∈ c.labels) :
    l ∈ b.labels ∨ l ∈ b.coming n := by
  obtain ⟨⟨d, hd, rfl⟩, -⟩ := h
  rw [← Body.labels_lengthen, ← hlen, Body.labels_lengthen, d.labels_shorten] at hl
  exact hd.labels l hl

theorem Edit.code_of_finish {b b' : Body} (h : b.Long) (hfinish : Edit.finish b = .ok () b') :
    b'.lengthen.code = b.code ∧ b'.locals = b.locals ∧ b'.labels = b.labels ∧ b'.labels.Nodup := by
  obtain ⟨hlen, hflaw⟩ := Edit.finish_eq_ok hfinish
  have hlong : { b with initLocals := true }.Long := h
  have hlocals : b'.lengthen.locals = b.locals := hlen ▸ rfl
  refine ⟨?_, hlocals, ?_, (Body.flaw?_eq_none.1 hflaw).nodup⟩
  · rw [hlen, hlong.lengthen_eq]
  · rw [← b'.labels_lengthen, hlen, Body.labels_lengthen]
    rfl

theorem Edit.accepted_of_finish {b c b' : Body} {n : Nat} (h : Edited b n c)
    (hf : Edit.finish c = .ok () b') : Accepted b n b' := by
  refine ⟨⟨{ c with initLocals := true }, h.congr rfl rfl, ?_⟩, ?_⟩
  · unfold Edit.finish at hf
    dsimp only at hf
    split at hf
    · cases hf
    · injection hf with _ hf
      exact hf.symm
  · exact Body.flaw?_eq_none.1 (Edit.finish_eq_ok hf).2

section

variable {b b' c : Body} {result : TypeName} {name : String} {hooks : Hooks} {n : Nat}

theorem edited_funnelReturns {funnel : Funnel} (hb : b.Long)
    (h : Edit.funnelReturns result b = .ok funnel c) :
    Edited b (if result.isVoid then 1 else b.returns.length + 2) c := by
  obtain ⟨-, -, rfl⟩ := Edit.funnelReturns_eq_foldl h
  have hlocals : Edited b 0 { b with locals := b.locals ++ resultLocals result } :=
    (Edited.refl hb).congr rfl rfl
  obtain ⟨hstart, hlabel⟩ := hlocals.create
  cases hv : result.isVoid with
  | true =>
    have hfold := hstart.foldl_expand (m := fun _ ↦ .branch .leave .long b.freshLabel)
      (f := fun _ ↦ []) (k := 0) (fun _ ↦ rfl) (fun _ _ ↦ List.forall_mem_nil _)
      (fun _ ↦ rfl) b.returns
    simp only [Nat.zero_mul, Nat.zero_add, Nat.add_zero] at hfold hlabel
    simp only [returnOp, returnRest, funnelCode, hv, if_true]
    exact hfold.append hlabel rfl
  | false =>
    have hfold := hstart.foldl_expand (m := fun _ ↦ .stloc (.ofNat b.locals.length))
      (f := fun _ ↦ [.branch .leave .long b.freshLabel]) (k := 1) (fun _ ↦ rfl)
      (fun _ _ ↦ List.forall_mem_singleton.2 rfl) (fun _ ↦ rfl) b.returns
    have hload := hfold.append (i := ⟨b.freshLabel, .ldloc (.ofNat b.locals.length)⟩)
      (Body.coming_mono (Nat.le_add_right _ _) hlabel) rfl
    have hreturn := (hload.push (rfl : Op.ret.isShort = false)).mono
      (show _ ≤ b.returns.length + 2 by omega)
    simp only [returnOp, returnRest, funnelCode, hv, Bool.false_eq_true, if_false]
    exact hreturn.congr (List.append_assoc _ [_] [_]).symm rfl

theorem edited_close {d e : Body} {index count : Nat} (hc : Edited b n c)
    (hd : Edit.insert index [.ldstr name, .call hooks.enter] c = .ok () d)
    (he : Edit.insertBeforeLast count [.nop, .call hooks.exit, .endfinally] d = .ok () e)
    (r : Region) : Edited b (n + 5) (e.addRegion r) := by
  have henter := hc.insert (by simp [Op.isShort]) hd
  have hexit := henter.insertBeforeLast (by simp [Op.isShort]) he
  exact hexit.congr rfl rfl

theorem accepted_of_close {start : Nat} {funnel : Funnel} (hc : Edited b n c)
    (h : Edit.close start funnel name hooks c = .ok () b') : Accepted b (n + 5) b' := by
  obtain ⟨i, d, e, -, hd, he, hfinish⟩ := Edit.edits_of_close h
  exact Edit.accepted_of_finish (edited_close hc hd he _) hfinish

theorem findBaseCall_same {base : Option TypeName} {l? : Option Label}
    (h : Edit.findBaseCall base b = .ok l? c) : c = b := by
  cases base with
  | none =>
    injection h with _ h
    exact h.symm
  | some base => exact (Edit.findBaseCall_eq_ok h).1

theorem spanStart_same {l? : Option Label} {start : Nat} (h : Edit.spanStart l? b = .ok start c) :
    c = b := by
  cases l? with
  | none =>
    injection h with _ h
    exact h.symm
  | some l => exact (Edit.spanStart_eq_ok h).1

theorem returns_lengthen (b : Body) : b.lengthen.returns = b.returns := by
  simp only [Body.returns, Body.lengthen, List.filter_map, List.map_map, Function.comp_def,
    Op.lengthen_eq_ret]

theorem accepted_of_bracket {base : Option TypeName}
    (h : b.bracket base result name hooks = (.ok (), b')) :
    Accepted b.lengthen (b.bracketDraw result) b' := by
  obtain ⟨-, anchor, e, funnel, d, start, g, hanchor, hf, hs, hclose⟩ := Body.bracket_eq_ok h
  obtain rfl := findBaseCall_same hanchor
  obtain rfl := spanStart_same hs
  have hd := accepted_of_close (edited_funnelReturns e.long_lengthen hf) hclose
  rw [returns_lengthen] at hd
  have hdraw : (if result.isVoid then 1 else e.returns.length + 2) + 5 = e.bracketDraw result := by
    unfold Body.bracketDraw
    split <;> rfl
  exact hdraw ▸ hd

theorem edited_exits {entry : Nat} {id : Int32} {exits : Exits}
    (hc : Edit.insert entry (correlatedCall id name hooks.asyncEnter) b.lengthen = .ok () c) :
    Edited b.lengthen exits.draw (exits.completions.foldl (Body.expand (fun _ ↦ .nop)
      fun op ↦ correlatedCall id name hooks.asyncExit ++ [op]) c) := by
  have henter := (Edited.refl b.long_lengthen).insert (by simp [correlatedCall, Op.isShort]) hc
  exact henter.foldl_expand (m := fun _ ↦ .nop) (k := 4)
    (f := fun op ↦ correlatedCall id name hooks.asyncExit ++ [op]) (fun _ ↦ rfl)
    (fun op hop ↦ List.forall_mem_append.2 ⟨by simp [correlatedCall, Op.isShort],
      List.forall_mem_singleton.2 hop⟩) (fun _ ↦ rfl) exits.completions

theorem accepted_of_correlate {id : Int32} {pattern : StepPattern} {exits : Exits}
    (h : b.correlate id name hooks pattern = (.ok exits, b')) :
    Accepted b.lengthen exits.draw b' := by
  obtain ⟨entry, c, -, -, -, -, hc, hfinish⟩ := edits_of_correlate h
  exact Edit.accepted_of_finish (edited_exits hc) hfinish

end

end CilSpan
