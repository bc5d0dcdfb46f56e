import CilSpan.Proofs.Machine.Budget

namespace CilSpan

namespace Heap

inductive Act
  | alloc
  | set (object : UInt32) (field : FieldName) (value : Value)
deriving DecidableEq, Repr

def perform (h : Heap) : Act → Heap
  | .alloc => h.alloc.2
  | .set object field value => h.set object field value

def after (h : Heap) (acts : List Act) : Heap := acts.foldl perform h

def made? (h : Heap) : Act → Option UInt32
  | .alloc => some h.alloc.1
  | .set _ _ _ => none

def made (h : Heap) : List Act → List UInt32
  | [] => []
  | act :: acts => (h.made? act).toList ++ (h.perform act).made acts

def Act.value? (object : UInt32) (same : FieldName → Bool) : Act → Option Value
  | .alloc => none
  | .set object' field value => if object' = object ∧ same field then some value else none

def lastSet? (object : UInt32) (same : FieldName → Bool) : List Act → Option Value
  | [] => none
  | act :: acts => (lastSet? object same acts).or (act.value? object same)

end Heap

def FieldName.sameName (f g : FieldName) : Bool := f.name = g.name

def FieldName.sameField (f g : FieldName) : Bool := f.owner = g.owner ∧ f.name = g.name

namespace Heap

variable {h : Heap} {object : UInt32} {field : FieldName} {n : UInt32} {i j k : Nat}

theorem after_append (h : Heap) (acts more : List Act) :
    h.after (acts ++ more) = (h.after acts).after more := List.foldl_append

theorem get_set (h : Heap) (object object' : UInt32) (field field' : FieldName) (value : Value) :
    (h.set object field value).get object' field' =
      if object = object' ∧ field.name = field'.name then value else h.get object' field' := by
  by_cases hsame : object = object' ∧ field.name = field'.name
  · obtain ⟨rfl, hname⟩ := hsame
    rw [if_pos ⟨rfl, hname⟩, get, set, ← hname, read?_write_self, Option.getD_some]
  · rw [if_neg hsame, get, set, read?_write_of_ne _ _ hsame]
    rfl

theorem get_perform (h : Heap) (act : Act) (object : UInt32) (field : FieldName) :
    (h.perform act).get object field =
      (act.value? object field.sameName).getD (h.get object field) := by
  cases act with
  | alloc => rfl
  | set object' field' value =>
    simp only [perform, get_set, Act.value?, FieldName.sameName, decide_eq_true_iff,
      eq_comm (a := field.name)]
    split <;> rfl

/-- A field has the value last stored under its name, and the one it had before if there is none. -/
theorem get_after (h : Heap) (acts : List Act) (object : UInt32) (field : FieldName) :
    (h.after acts).get object field =
      (lastSet? object field.sameName acts).getD (h.get object field) := by
  induction acts generalizing h with
  | nil => rfl
  | cons act acts ih =>
    calc (h.after (act :: acts)).get object field
      _ = (lastSet? object field.sameName acts).getD ((h.perform act).get object field) := ih _
      _ = (lastSet? object field.sameName acts).getD
            ((act.value? object field.sameName).getD (h.get object field)) := by rw [get_perform]
      _ = (lastSet? object field.sameName (act :: acts)).getD (h.get object field) := by
        rw [lastSet?]
        cases lastSet? object field.sameName acts <;> rfl

theorem next_after (h : Heap) (acts : List Act) :
    (h.after acts).next = h.next + .ofNat (acts.count .alloc) := by
  induction acts generalizing h with
  | nil => exact (UInt32.add_zero _).symm
  | cons act acts ih =>
    rw [after, List.foldl_cons, ← after, ih]
    cases act with
    | alloc =>
      rw [List.count_cons_self, Nat.add_comm, UInt32.ofNat_add, ← UInt32.add_assoc]
      rfl
    | set object field value => simp [perform, set, write]

/-- Objects are numbered one by one, from the next number on, around the end of the count. -/
theorem made_eq (h : Heap) (acts : List Act) :
    h.made acts = (List.range (acts.count .alloc)).map fun k ↦ h.next + .ofNat k := by
  induction acts generalizing h with
  | nil => rfl
  | cons act acts ih =>
    rw [made, ih]
    cases act with
    | alloc =>
      rw [List.count_cons_self, List.range_succ_eq_map, List.map_cons, List.map_map]
      refine congrArg₂ List.cons (UInt32.add_zero _).symm (List.map_congr_left fun k _ ↦ ?_)
      rw [Function.comp_apply, Nat.succ_eq_add_one, UInt32.ofNat_add, UInt32.add_comm (.ofNat k),
        ← UInt32.add_assoc]
      rfl
    | set object field value => simp [made?, perform, set, write]

theorem eq_of_made {acts : List Act} (hi : (h.made acts)[i]? = some n) : n = h.next + .ofNat i := by
  obtain ⟨-, rfl⟩ := List.getElem?_eq_some_iff.1 hi
  simp only [made_eq, List.getElem_map, List.getElem_range]

/-- A number comes again only when the count of objects has been around. -/
theorem size_le_of_made {acts : List Act} (hi : (h.made acts)[i]? = some n)
    (hj : (h.made acts)[j]? = some n) (hij : i < j) : UInt32.size ≤ j - i := by
  have hsum : h.next + .ofNat i = h.next + .ofNat j := (eq_of_made hi).symm.trans (eq_of_made hj)
  have hmod := congrArg UInt32.toNat ((UInt32.add_right_inj h.next).1 hsum)
  rw [UInt32.toNat_ofNat', UInt32.toNat_ofNat'] at hmod
  exact Nat.le_of_dvd (Nat.sub_pos_of_lt hij)
    (Nat.dvd_of_mod_eq_zero (Nat.sub_mod_eq_zero_of_mod_eq hmod.symm))

end Heap

variable {σ : Type}

structure Request where
  body : Body
  hooks : Hooks
  call : Invocation
deriving DecidableEq, Repr

def share (host : Host σ) : List Request → Heap × σ → Heap × σ
  | [], outside => outside
  | request :: requests, (heap, world) =>
    let result := request.body.invoke request.hooks host request.call heap world
    share host requests (result.heap, result.world)

def sharedDeeds (host : Host σ) : List Request → Heap × σ → List Deed
  | [], _ => []
  | request :: requests, (heap, world) =>
    let result := request.body.invoke request.hooks host request.call heap world
    request.body.deeds request.hooks host request.call heap world ++
      sharedDeeds host requests (result.heap, result.world)

abbrev Trail (σ : Type) := Callee → List Value → Heap → σ → List Heap.Act

def Host.Leaves (host : Host σ) (trail : Trail σ) : Prop :=
  ∀ callee args heap world,
    (host.call callee args heap world).2.1 = heap.after (trail callee args heap world)

def Deed.acts (trail : Trail σ) : Heap × σ → Deed → List Heap.Act
  | _, .alloc => [.alloc]
  | _, .store object field value => [.set object field value]
  | (heap, world), .call callee args => trail callee args heap world

def heapActs (host : Host σ) (trail : Trail σ) : Heap × σ → List Deed → List Heap.Act
  | _, [] => []
  | outside, deed :: deeds =>
    deed.acts trail outside ++ heapActs host trail (deed.perform host outside) deeds

theorem share_eq (host : Host σ) (requests : List Request) (outside : Heap × σ) :
    share host requests outside =
      (sharedDeeds host requests outside).foldl (Deed.perform host) outside := by
  induction requests generalizing outside with
  | nil => rfl
  | cons request requests ih =>
    obtain ⟨heap, world⟩ := outside
    have hfirst := request.body.outside_invoke request.hooks host request.call heap world
    dsimp only at hfirst
    rw [share, sharedDeeds, List.foldl_append, ← hfirst, ih]

section

variable {host : Host σ} {trail : Trail σ} (h : host.Leaves trail)
include h

theorem Host.Leaves.heap_perform (outside : Heap × σ) (deed : Deed) :
    (deed.perform host outside).1 = outside.1.after (deed.acts trail outside) := by
  obtain ⟨heap, world⟩ := outside
  cases deed with
  | alloc | store => rfl
  | call callee args => exact h callee args heap world

theorem Host.Leaves.heap_foldl (outside : Heap × σ) (deeds : List Deed) :
    (deeds.foldl (Deed.perform host) outside).1 =
      outside.1.after (heapActs host trail outside deeds) := by
  induction deeds generalizing outside with
  | nil => rfl
  | cons deed deeds ih =>
    rw [List.foldl_cons, ih, heapActs, Heap.after_append, h.heap_perform]

end

namespace Heap

/-- A field is found by its object and its name. After any history it has the value last set under
them, or else the zero value of the type that it is asked for with. A set changes no other name and
no other object, and a number is given to an object again only when the count of objects has been
around. All that invocations do to the heap that they share is such a history: it has an act for
each object made and each field set by an instruction, and those of the host in between. -/
theorem fields_by_name {host : Host σ} {trail : Trail σ} (htrail : host.Leaves trail) :
    (∀ acts object field, (empty.after acts).get object field =
      (lastSet? object field.sameName acts).getD (.zero field.type)) ∧
    (∀ (h : Heap) object field value object' (field' : FieldName),
      object' ≠ object ∨ field'.name ≠ field.name →
        (h.set object field value).get object' field' = h.get object' field') ∧
    (∀ acts i j n, (empty.made acts)[i]? = some n → (empty.made acts)[j]? = some n → i < j →
      UInt32.size ≤ j - i) ∧
    ∀ requests world, (share host requests (empty, world)).1 = empty.after
      (heapActs host trail (empty, world) (sharedDeeds host requests (empty, world))) := by
  refine ⟨fun acts object field ↦ get_after empty acts object field, ?_,
    fun acts i j n ↦ size_le_of_made, fun requests world ↦ ?_⟩
  · intro h object field value object' field' hother
    rw [get_set, if_neg]
    rintro ⟨rfl, hname⟩
    exact hother.elim (· rfl) (· hname.symm)
  · rw [share_eq, htrail.heap_foldl]

end Heap

def labelling : Host Unit where
  call
    | callee, .object number :: _, heap, world =>
      (callee.zeroReply, heap.set number ⟨callee.owner, "label", .string⟩ (.str callee.name), world)
    | callee, _, heap, world => (callee.zeroReply, heap, world)

def labellingTrail : Trail Unit
  | callee, .object number :: _, _, _ =>
    [.set number ⟨callee.owner, "label", .string⟩ (.str callee.name)]
  | _, _, _, _ => []

namespace Heap

theorem fields_by_name_twoFilled :
    let request : Request := ⟨filledObject, .on ⟨"App", "Tracer"⟩, ⟨[], 9⟩⟩
    let heap := (share labelling [request, request] (empty, ())).1
    heap.get 1 ⟨⟨"App", "Leaf"⟩, "value", .int32⟩ = .int 5 ∧
      heap.get 0 ⟨⟨"App", "Node"⟩, "label", .string⟩ = .str ".ctor" ∧
      heap.get 2 ⟨⟨"App", "Node"⟩, "value", .int32⟩ = .int 0 ∧
      (heap.set 1 ⟨⟨"App", "Node"⟩, "value", .int32⟩ .null).get 0
        ⟨⟨"App", "Node"⟩, "value", .int32⟩ = heap.get 0 ⟨⟨"App", "Node"⟩, "value", .int32⟩ := by
  intro request heap
  have htrail : labelling.Leaves labellingTrail := by
    intro callee args heap world
    cases args with
    | nil => rfl
    | cons v args => cases v <;> rfl
  obtain ⟨hget, hset, -, hshare⟩ := fields_by_name htrail
  have hheap : heap = _ := hshare [request, request] ()
  refine ⟨?_, ?_, ?_, hset heap _ _ _ _ _ (.inl (by decide))⟩
  · rw [hheap, hget]
    decide +kernel
  · rw [hheap, hget]
    decide +kernel
  · rw [hheap, hget]
    decide +kernel

/-- Fields of one name are one field, also if different types declare them: what is set in one of
them is what the other one has. And the number of an object comes again after `2 ^ 32` objects. -/
theorem fields_alias :
    let base : FieldName := ⟨⟨"App", "Shape"⟩, "count", .int32⟩
    let derived : FieldName := ⟨⟨"App", "Circle"⟩, "count", .int32⟩
    let acts := [.alloc, .set 0 base (.int 1), .set 0 derived (.int 2)]
    base.sameField derived = false ∧ lastSet? 0 base.sameField acts = some (.int 1) ∧
      (empty.after acts).get 0 base = .int 2 ∧
      (empty.after (.replicate UInt32.size .alloc)).alloc.1 = empty.alloc.1 := by
  refine ⟨by decide, by decide, by decide, ?_⟩
  rw [alloc, next_after, List.count_replicate_self]
  decide

end Heap

end CilSpan
