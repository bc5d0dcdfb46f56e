import CilSpan.Machine.Step

namespace CilSpan

def Op.fallsThrough : Op → Bool
  | .ret | .throw | .endfinally | .branch .always _ _ | .branch .leave _ _ => false
  | _ => true

variable {σ : Type}

inductive Deed
  | alloc
  | store (object : UInt32) (field : FieldName) (value : Value)
  | call (callee : Callee) (args : List Value)
deriving DecidableEq, Repr

def Deed.perform (host : Host σ) : Heap × σ → Deed → Heap × σ
  | (heap, world), .alloc => (heap.alloc.2, world)
  | (heap, world), .store object field value => (heap.set object field value, world)
  | (heap, world), .call callee args => (host.call callee args heap world).2

def State.outside (s : State σ) : Heap × σ := (s.heap, s.world)

/-- What an operation does outside when it finds this stack, and `next` is the number of the next
object. Calls of the tracer do nothing. -/
def Op.deeds (hooks : Hooks) (next : UInt32) : Op → List Value → List Deed
  | .stfld field, value :: .object number :: _ => [.store number field value]
  | .call callee, stack | .callvirt callee, stack =>
    match popArgs? stack callee.arity, hooks.hook? callee with
    | some (args, _), none => [.call callee args]
    | _, _ => []
  | .newobj ctor, stack =>
    match popArgs? stack ctor.params.length with
    | some (args, _) => [.alloc, .call ctor (.object next :: args)]
    | none => []
  | _, _ => []

namespace Program

/-- From `s` to `s'` nothing was done to the pending handlers, and outside what `op` does there. What
was recorded on the way is a call of the tracer only if `op` is one. -/
structure Follows (p : Program σ) (op : Op) (s s' : State σ) : Prop where
  slots : s'.slots.length = s.slots.length
  pending : s'.pending = s.pending
  path : s'.path = s.path
  events : ∃ new, s'.events = new ++ s.events ∧ ∀ e ∈ new, ∀ hook, e.hook? = some hook →
    ∃ callee, op.callee? = some callee ∧ p.hooks.hook? callee = some hook
  outside : s'.outside =
    (op.deeds p.hooks s.heap.next s.stack).foldl (Deed.perform p.host) s.outside

/-- What is missing when the machine breaks with this fault at `op`: for a fault that comes from looking
for a label or a slot, just that. -/
def Lacks (p : Program σ) (op : Op) (s : State σ) : Fault → Prop
  | .lostTarget l => op.target? = some l ∧ p.body.position? l = none
  | .lostSlot k => op.slot? = some k ∧ s.slots.length ≤ k.toNat
  | .budgetExhausted _ => False
  | _ => True

/-- The ways in which an instruction that stands at the position of `s` can end. -/
inductive Effect (p : Program σ) (i : Instr) (s : State σ) : Turn σ → Prop
  | next {s' : State σ} (h : p.Follows i.op s s') (hf : i.op.fallsThrough = true)
      (hn : s'.position = s.position + 1) : Effect p i s (.next s')
  | branch {s' : State σ} {jump : Jump} {width : Width} {target : Label} {n : Nat}
      (h : p.Follows i.op s s') (hop : i.op = .branch jump width target) (hj : jump ≠ .leave)
      (ht : p.body.position? target = some n) (hn : s'.position = n) : Effect p i s (.jumped s')
  | leave {s' : State σ} {width : Width} {target : Label} {n : Nat}
      (h : p.Follows i.op s s') (hop : i.op = .branch .leave width target)
      (ht : p.body.position? target = some n) :
      Effect p i s (s'.depart n (handlersBetween p.zones s.position n))
  | resume {target : Nat} {handlers : List Nat} {rest : List Pending}
      (hop : i.op = .endfinally) (hp : s.pending = .leave target handlers :: rest) :
      Effect p i s ({ s with pending := rest }.depart target handlers)
  | unwind {exception : Value} {origin nextZone : Nat} {rest : List Pending}
      (hop : i.op = .endfinally) (hp : s.pending = .unwind exception origin nextZone :: rest) :
      Effect p i s (p.raise exception origin nextZone { s with pending := rest })
  | raise {s' : State σ} {exception : Value} (h : p.Follows i.op s s') :
      Effect p i s (p.raise exception s.position 0 s')
  | returned {s' : State σ} {value : Option Value} (h : p.Follows i.op s s') (hop : i.op = .ret) :
      Effect p i s (.ended (.returned value) s')
  | broken {s' : State σ} {fault : Fault} (h : p.Follows i.op s s') (hl : p.Lacks i.op s fault) :
      Effect p i s (.broken fault s')

variable {p : Program σ} {i : Instr} {s s' : State σ}

namespace Follows

theorem frame {op : Op} {position : Nat} {stack : List Value}
    (hd : op.deeds p.hooks s.heap.next s.stack = []) :
    p.Follows op s { s with position, stack } :=
  ⟨rfl, rfl, rfl, ⟨[], rfl, by simp⟩, by rw [hd]; rfl⟩

theorem call {op : Op} {routine : String} {position : Nat} {stack : List Value} {heap : Heap}
    {world : σ} (hd : (op.deeds p.hooks s.heap.next s.stack).foldl (Deed.perform p.host) s.outside =
      (heap, world)) : p.Follows op s
      { s with position, stack, heap, world, events := .call routine :: s.events } :=
  ⟨rfl, rfl, rfl, ⟨[.call routine], rfl, by simp [Event.hook?]⟩, hd.symm⟩

end Follows

section

variable {callee : Callee} {l : Label} {args stack : List Value} {hook : Hook} {heap : Heap}
  {world : σ}

theorem invoke_underflow (ha : popArgs? s.stack callee.arity = none) :
    p.invoke callee l s = .broken (.stackUnderflow l) s := by
  simp only [invoke, ha]

theorem invoke_hook {event : Event} (ha : popArgs? s.stack callee.arity = some (args, stack))
    (hk : p.hooks.hook? callee = some hook) (he : hookEvent? hook args = some event) :
    p.invoke callee l s = (s.record event).next stack := by
  simp only [invoke, ha, hk, he]

theorem invoke_badHook (ha : popArgs? s.stack callee.arity = some (args, stack))
    (hk : p.hooks.hook? callee = some hook) (he : hookEvent? hook args = none) :
    p.invoke callee l s = .broken (.badHookArguments hook) s := by
  simp only [invoke, ha, hk, he]

theorem invoke_back {value : Option Value}
    (ha : popArgs? s.stack callee.arity = some (args, stack))
    (hk : p.hooks.hook? callee = none)
    (hc : p.host.call callee args s.heap s.world = (.back value, heap, world)) :
    p.invoke callee l s = ({ s with stack, heap, world }.record (callEvent callee)).next
      (if callee.returns then value.getD .null :: stack else stack) := by
  simp only [invoke, ha, hk, State.record, hc]
  split <;> rfl

theorem invoke_raise {exception : Value}
    (ha : popArgs? s.stack callee.arity = some (args, stack))
    (hk : p.hooks.hook? callee = none)
    (hc : p.host.call callee args s.heap s.world = (.raise exception, heap, world)) :
    p.invoke callee l s = p.raise exception s.position 0
      ({ s with stack, heap, world }.record (callEvent callee)) := by
  simp only [invoke, ha, hk, State.record, hc]

theorem construct_underflow (ha : popArgs? s.stack callee.params.length = none) :
    p.construct callee l s = .broken (.stackUnderflow l) s := by
  simp only [construct, ha]

theorem construct_back {value : Option Value}
    (ha : popArgs? s.stack callee.params.length = some (args, stack))
    (hc : p.host.call callee (.object s.heap.next :: args) s.heap.alloc.2 s.world =
      (.back value, heap, world)) :
    p.construct callee l s = ({ s with stack, heap, world }.record (callEvent callee)).next
      (.object s.heap.next :: stack) := by
  simp only [construct, ha, State.record, Heap.alloc] at hc ⊢
  simp only [hc]

theorem construct_raise {exception : Value}
    (ha : popArgs? s.stack callee.params.length = some (args, stack))
    (hc : p.host.call callee (.object s.heap.next :: args) s.heap.alloc.2 s.world =
      (.raise exception, heap, world)) :
    p.construct callee l s = p.raise exception s.position 0
      ({ s with stack, heap, world }.record (callEvent callee)) := by
  simp only [construct, ha, State.record, Heap.alloc] at hc ⊢
  simp only [hc]

end

theorem load_null {field : FieldName} {l : Label} {stack : List Value}
    (hs : s.stack = .null :: stack) :
    p.load field l s = p.raise nullReference s.position 0 { s with stack } := by
  simp only [load, hs]

theorem store_null {field : FieldName} {l : Label} {value : Value} {stack : List Value}
    (hs : s.stack = value :: .null :: stack) :
    p.store field l s = p.raise nullReference s.position 0 { s with stack } := by
  simp only [store, hs]

/-- A field is loaded from an object; null raises; with anything else the machine breaks. -/
theorem load_cases (p : Program σ) (field : FieldName) (l : Label) (s : State σ) :
    (∃ number stack, s.stack = .object number :: stack ∧
      p.load field l s = s.next (s.heap.get number field :: stack)) ∨
    (∃ stack, s.stack = .null :: stack ∧
      p.load field l s = p.raise nullReference s.position 0 { s with stack }) ∨
    p.load field l s = .broken (.stackUnderflow l) s ∨
    ∃ found, p.load field l s = .broken (.typeMismatch l "object reference" found) s := by
  rcases hs : s.stack with _ | ⟨v, stack⟩
  · exact .inr (.inr (.inl (by simp only [load, hs])))
  · cases v with
    | object number => exact .inl ⟨number, stack, rfl, by simp only [load, hs]⟩
    | null => exact .inr (.inl ⟨stack, rfl, load_null hs⟩)
    | int | str => exact .inr (.inr (.inr ⟨Value.text _, by simp only [load, hs]; rfl⟩))

theorem hook?_of_hookEvent? {hook : Hook} {args : List Value} {event : Event}
    (h : hookEvent? hook args = some event) : event.hook? = some hook := by
  unfold hookEvent? at h
  split at h <;> simp_all [Event.hook?] <;> subst h <;> rfl

theorem effect_jumpTo {jump : Jump} {width : Width} {target : Label}
    (hop : i.op = .branch jump width target) (hj : jump ≠ .leave) (h : p.Follows i.op s s') :
    p.Effect i s (p.jumpTo target s') := by
  unfold jumpTo
  split
  · rename_i ht
    exact .branch ⟨h.slots, h.pending, h.path, h.events, h.outside⟩ hop hj ht rfl
  · rename_i ht
    exact .broken h ⟨by rw [hop]; rfl, ht⟩

theorem effect_branch {jump : Jump} {width : Width} {target l : Label}
    (hop : i.op = .branch jump width target) : p.Effect i s (p.branch jump target l s) := by
  have hs {position : Nat} {stack : List Value} : p.Follows i.op s { s with position, stack } :=
    .frame (by rw [hop]; rfl)
  have hn {stack : List Value} (hf : i.op.fallsThrough = true) :
      p.Effect i s (s.next stack) := .next hs hf rfl
  unfold branch
  split
  · exact effect_jumpTo hop nofun hs
  · split
    · rename_i ht
      exact .leave hs hop ht
    · rename_i ht
      exact .broken hs ⟨by rw [hop]; rfl, ht⟩
  · split
    · exact effect_jumpTo hop nofun hs
    · exact hn (by simp [hop, Op.fallsThrough])
  · split
    · exact hn (by simp [hop, Op.fallsThrough])
    · exact effect_jumpTo hop nofun hs
  · exact .broken hs trivial

theorem effect_endfinally {l : Label} (hop : i.op = .endfinally) :
    p.Effect i s (p.endfinally l s) := by
  unfold endfinally
  split
  · exact .broken (.frame (by rw [hop]; rfl)) trivial
  · rename_i hp
    exact .resume hop hp
  · rename_i hp
    exact .unwind hop hp

theorem effect_invoke {callee : Callee} {l : Label}
    (hop : i.op = .call callee ∨ i.op = .callvirt callee) :
    p.Effect i s (p.invoke callee l s) := by
  have hcallee : i.op.callee? = some callee := by obtain hop | hop := hop <;> rw [hop] <;> rfl
  have hf : i.op.fallsThrough = true := by obtain hop | hop := hop <;> rw [hop] <;> rfl
  have hd : i.op.deeds p.hooks s.heap.next s.stack =
      match popArgs? s.stack callee.arity, p.hooks.hook? callee with
      | some (args, _), none => [.call callee args]
      | _, _ => [] := by
    obtain hop | hop := hop <;> rw [hop] <;> rfl
  cases ha : popArgs? s.stack callee.arity with
  | none =>
    rw [ha] at hd
    exact invoke_underflow ha ▸ .broken (.frame hd) trivial
  | some args =>
    cases hk : p.hooks.hook? callee with
    | some hook =>
      rw [ha, hk] at hd
      cases he : hookEvent? hook args.1 with
      | none => exact invoke_badHook ha hk he ▸ .broken (.frame hd) trivial
      | some event =>
        rw [invoke_hook ha hk he]
        refine .next ⟨rfl, rfl, rfl, ⟨[event], rfl, fun e hm hook' hk' ↦ ⟨callee, hcallee, ?_⟩⟩, ?_⟩
          hf rfl
        · obtain rfl := List.mem_singleton.1 hm
          rw [hk, ← hk', hook?_of_hookEvent? he]
        · rw [hd]
          rfl
    | none =>
      rw [ha, hk] at hd
      rcases hc : p.host.call callee args.1 s.heap s.world with ⟨reply, heap, world⟩
      have hdone : (i.op.deeds p.hooks s.heap.next s.stack).foldl (Deed.perform p.host) s.outside =
          (heap, world) := by
        rw [hd]
        exact congrArg Prod.snd hc
      cases reply with
      | back => exact invoke_back ha hk hc ▸ .next (.call hdone) hf rfl
      | raise => exact invoke_raise ha hk hc ▸ .raise (.call hdone)

theorem effect_construct {ctor : Callee} {l : Label} (hop : i.op = .newobj ctor) :
    p.Effect i s (p.construct ctor l s) := by
  have hf : i.op.fallsThrough = true := by rw [hop]; rfl
  cases ha : popArgs? s.stack ctor.params.length with
  | none =>
    refine construct_underflow ha ▸ .broken (.frame ?_) trivial
    simp only [hop, Op.deeds, ha]
  | some args =>
    rcases hc : p.host.call ctor (.object s.heap.next :: args.1) s.heap.alloc.2 s.world with
      ⟨reply, heap, world⟩
    have hdone : (i.op.deeds p.hooks s.heap.next s.stack).foldl (Deed.perform p.host) s.outside =
        (heap, world) := by
      simp only [hop, Op.deeds, ha]
      exact congrArg Prod.snd hc
    cases reply with
    | back => exact construct_back ha hc ▸ .next (.call hdone) hf rfl
    | raise => exact construct_raise ha hc ▸ .raise (.call hdone)

theorem effect_load {field : FieldName} {l : Label} (hop : i.op = .ldfld field) :
    p.Effect i s (p.load field l s) := by
  have hs {position : Nat} {stack : List Value} : p.Follows i.op s { s with position, stack } :=
    .frame (by rw [hop]; rfl)
  obtain ⟨number, stack, -, h⟩ | ⟨stack, -, h⟩ | h | ⟨found, h⟩ := p.load_cases field l s
  · exact h ▸ .next hs (by rw [hop]; rfl) rfl
  · exact h ▸ .raise hs
  · exact h ▸ .broken hs trivial
  · exact h ▸ .broken hs trivial

theorem effect_store {field : FieldName} {l : Label} (hop : i.op = .stfld field) :
    p.Effect i s (p.store field l s) := by
  rcases hs : s.stack with _ | ⟨value, _ | ⟨v, stack⟩⟩
  · simp only [store, hs]
    exact .broken (.frame (by rw [hop, hs]; rfl)) trivial
  · simp only [store, hs]
    exact .broken (.frame (by rw [hop, hs]; rfl)) trivial
  · cases v with
    | object number =>
      simp only [store, hs]
      refine .next ⟨rfl, rfl, rfl, ⟨[], rfl, by simp⟩, ?_⟩ (by rw [hop]; rfl) rfl
      rw [hop, hs]
      rfl
    | null => exact store_null hs ▸ .raise (.frame (by rw [hop, hs]; rfl))
    | int | str =>
      simp only [store, hs]
      exact .broken (.frame (by rw [hop, hs]; rfl)) trivial

theorem effect_arith {op : Arith} {l : Label} (hop : i.op = .arith op) :
    p.Effect i s (s.arith op l) := by
  have hs {position : Nat} {stack : List Value} : p.Follows i.op s { s with position, stack } :=
    .frame (by rw [hop]; rfl)
  unfold State.arith
  split
  · exact .broken hs trivial
  · exact .next hs (by rw [hop]; rfl) rfl
  · exact .broken hs trivial
  · exact .broken hs trivial
  · exact .broken hs trivial

theorem effect_exec (p : Program σ) (i : Instr) (s : State σ) : p.Effect i s (p.exec i s) := by
  obtain ⟨l, op⟩ := i
  obtain ⟨position, stack, slots, pending, heap, world, path, events⟩ := s
  cases op with
  | nop | ldnull | ldc | ldstr => exact .next (.frame rfl) rfl rfl
  | ldarg index =>
    simp only [exec]
    split
    · exact .next (.frame rfl) rfl rfl
    · exact .broken (.frame rfl) trivial
  | ldloc slot =>
    simp only [exec]
    split
    · exact .next (.frame rfl) rfl rfl
    · rename_i hslot
      exact .broken (.frame rfl) ⟨rfl, List.getElem?_eq_none_iff.1 hslot⟩
  | stloc slot =>
    cases stack with
    | nil => exact .broken (.frame rfl) trivial
    | cons v stack =>
      simp only [exec]
      split
      · exact .next ⟨List.length_set, rfl, rfl, ⟨[], rfl, by simp⟩, rfl⟩ rfl rfl
      · rename_i hslot
        exact .broken (.frame rfl) ⟨rfl, Nat.le_of_not_lt hslot⟩
  | pop | dup =>
    cases stack with
    | nil => exact .broken (.frame rfl) trivial
    | cons v stack => exact .next (.frame rfl) rfl rfl
  | ceq =>
    rcases stack with _ | ⟨b, _ | ⟨a, stack⟩⟩
    · exact .broken (.frame rfl) trivial
    · exact .broken (.frame rfl) trivial
    · exact .next (.frame rfl) rfl rfl
  | throw =>
    cases stack with
    | nil => exact .broken (.frame rfl) trivial
    | cons v stack =>
      have h : p.Follows .throw ⟨position, v :: stack, slots, pending, heap, world, path, events⟩
          ⟨position, stack, slots, pending, heap, world, path, events⟩ := .frame rfl
      exact .raise h
  | ret => exact .returned (.frame rfl) rfl
  | arith op => exact effect_arith rfl
  | ldfld field => exact effect_load rfl
  | stfld field => exact effect_store rfl
  | call callee => exact effect_invoke (.inl rfl)
  | callvirt callee => exact effect_invoke (.inr rfl)
  | newobj ctor => exact effect_construct rfl
  | branch jump width target => exact effect_branch rfl
  | endfinally => exact effect_endfinally rfl

theorem exists_depart (s : State σ) (target : Nat) (handlers : List Nat) :
    ∃ t, s.depart target handlers = .jumped t ∧ t.path = s.path ∧ t.events = s.events := by
  cases handlers with
  | nil => exact ⟨_, rfl, rfl, rfl⟩
  | cons first handlers => exact ⟨_, rfl, rfl, rfl⟩

theorem exists_raise (p : Program σ) (exception : Value) (origin first : Nat) (s : State σ) :
    (∃ t, p.raise exception origin first s = .jumped t ∧ t.path = s.path ∧ t.events = s.events) ∨
      p.raise exception origin first s = .ended (.threw exception) s := by
  unfold raise
  split
  · exact .inr rfl
  · split
    · exact .inl ⟨_, rfl, rfl, rfl⟩
    · exact .inl ⟨_, rfl, rfl, rfl⟩

theorem events_of_invoke_next {callee : Callee} {l : Label} (hk : p.hooks.hook? callee = none)
    (h : p.invoke callee l s = .next s') : s'.events = callEvent callee :: s.events := by
  cases ha : popArgs? s.stack callee.arity with
  | none =>
    rw [invoke_underflow ha] at h
    cases h
  | some args =>
    rcases hc : p.host.call callee args.1 s.heap s.world with ⟨reply, heap, world⟩
    cases reply with
    | back =>
      rw [invoke_back ha hk hc] at h
      injection h with h
      exact h ▸ rfl
    | raise exception =>
      rw [invoke_raise ha hk hc] at h
      obtain ⟨t, ht, -⟩ | ht := exists_raise p exception s.position 0 _
      · rw [ht] at h
        cases h
      · rw [ht] at h
        cases h

/-- What can be told of a step from the way it ends. Only a jump may have put something onto the pending
stack or taken it away. -/
def Shows (p : Program σ) (i : Instr) (s : State σ) : Turn σ → Prop
  | .next t => p.Follows i.op s t ∧ t.position = s.position + 1
  | .ended (.returned _) _ => i.op = .ret
  | .broken fault t => p.Follows i.op s t ∧ p.Lacks i.op s fault
  | .jumped _ | .ended (.threw _) _ => True

theorem Effect.shows {turn : Turn σ} (h : p.Effect i s turn) : p.Shows i s turn := by
  cases h with
  | next h _ hn => exact ⟨h, hn⟩
  | branch => trivial
  | leave | resume =>
    obtain ⟨t, ht, -⟩ := exists_depart _ _ _
    rw [ht]
    trivial
  | unwind | raise =>
    obtain ⟨t, ht, -⟩ | ht := exists_raise p _ _ _ _
    · rw [ht]
      trivial
    · rw [ht]
      trivial
  | returned _ hop => exact hop
  | broken h hl => exact ⟨h, hl⟩

theorem shows_exec {turn : Turn σ} (h : p.exec i s = turn) : p.Shows i s turn :=
  h ▸ (effect_exec p i s).shows

theorem exec_ne_returned {value : Option Value} (hop : i.op ≠ .ret) :
    p.exec i s ≠ .ended (.returned value) s' := fun h ↦ hop (shows_exec h)

end Program

end CilSpan
