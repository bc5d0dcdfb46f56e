import CilSpan.Proofs.Body.Expand
import CilSpan.Proofs.Machine.Fits
import Mathlib.Order.Monotone.Basic

namespace CilSpan

def Extent.move (f : Nat → Nat) (e : Extent) : Extent := ⟨f e.start, f e.stop⟩

def Zone.move (f : Nat → Nat) (z : Zone) : Zone := ⟨z.cleanup, z.guarded.move f, z.handler.move f⟩

def Pending.move (f : Nat → Nat) : Pending → Pending
  | .leave target handlers => .leave (f target) (handlers.map f)
  | .unwind exception origin nextZone => .unwind exception (f origin) nextZone

variable {f : Nat → Nat} {zones outer : List Zone} {n k : Nat}

theorem covers_move (hf : StrictMono f) (e : Extent) (n : Nat) :
    (e.move f).covers (f n) = e.covers n := by
  simp only [Extent.covers, Extent.move, hf.le_iff_le, hf.lt_iff_lt]

theorem guardian?_append_of_le {zs : List Zone} (hk : k ≤ zs.length) :
    guardian? (zs ++ outer) n k =
      (guardian? zs n k).or (guardian? (zs ++ outer) n zs.length) := by
  have hd : ((zs ++ outer).zipIdx.drop k) = zs.zipIdx.drop k ++ outer.zipIdx zs.length := by
    rw [List.zipIdx_append, Nat.zero_add, List.drop_append_of_le_length (by simpa using hk)]
  have hl : ((zs ++ outer).zipIdx.drop zs.length) = outer.zipIdx zs.length := by
    rw [List.zipIdx_append, Nat.zero_add, List.drop_left' (by simp)]
  simp only [guardian?, hd, hl, List.find?_append]

theorem guardian?_move (hf : StrictMono f) (zs : List Zone) (n k : Nat) :
    guardian? (zs.map (Zone.move f)) (f n) k =
      (guardian? zs n k).map fun z ↦ (z.1.move f, z.2) := by
  simp only [guardian?, List.zipIdx_map, ← List.map_drop, List.find?_map, Function.comp_def]
  congr 1
  exact congrArg (List.find? · _) (funext fun z ↦ covers_move hf z.1.guarded n)

theorem handlersBetween_append (zs outer : List Zone) (n k : Nat) :
    handlersBetween (zs ++ outer) n k = handlersBetween zs n k ++ handlersBetween outer n k := by
  simp only [handlersBetween, List.filter_append, List.map_append]

theorem covers_move_of_between (hf : StrictMono f) (e : Extent) (hk : f n ≤ k) (hk' : k < f (n + 1)) :
    (e.move f).covers k = e.covers n := by
  have hs : f e.start ≤ k ↔ e.start ≤ n := by
    refine ⟨fun h ↦ ?_, fun h ↦ (hf.monotone h).trans hk⟩
    exact Nat.lt_succ_iff.1 (hf.lt_iff_lt.1 (lt_of_le_of_lt h hk'))
  have he : k < f e.stop ↔ n < e.stop := by
    refine ⟨fun h ↦ hf.lt_iff_lt.1 (lt_of_le_of_lt hk h), fun h ↦ ?_⟩
    exact lt_of_lt_of_le hk' (hf.monotone h)
  simp only [Extent.covers, Extent.move, hs, he]

theorem handlersBetween_move (hf : StrictMono f) (zs : List Zone) {m : Nat} (hk : f n ≤ k)
    (hk' : k < f (n + 1)) :
    handlersBetween (zs.map (Zone.move f)) k (f m) = (handlersBetween zs n m).map f := by
  induction zs with
  | nil => rfl
  | cons z zs ih =>
    simp only [handlersBetween, List.map_cons, List.filter_cons, Zone.move, covers_move hf,
      covers_move_of_between hf _ hk hk'] at ih ⊢
    split
    · simp only [List.map_cons, ih]
      rfl
    · exact ih

variable {σ : Type}

/-- The same state, seen from the larger program. It may have more locals, and its record of events
may be another one. -/
structure State.Alike (f : Nat → Nat) (extra : List Value) (R : List Event → List Event → Prop)
    (s s' : State σ) : Prop where
  stack : s'.stack = s.stack
  slots : s'.slots = s.slots ++ extra
  pending : s'.pending = s.pending.map (Pending.move f)
  heap : s'.heap = s.heap
  world : s'.world = s.world
  events : R s.events s'.events

namespace Program

structure Embeds (f : Nat → Nat) (outer : List Zone) (p q : Program σ) : Prop where
  mono : StrictMono f
  hooks : q.hooks = p.hooks
  args : q.args = p.args
  host : q.host = p.host
  zones : q.zones = p.zones.map (Zone.move f) ++ outer
  position : ∀ l n, p.body.position? l = some n → q.body.position? l = some (f n)

/-- What an instruction at `n` does in `p`, and the same one at `n'` in `q`. An exception that ends
the smaller program was raised where `O` holds. -/
inductive Alike (f : Nat → Nat) (extra : List Value) (R : List Event → List Event → Prop)
    (O : Nat → Prop) (p q : Program σ) (n n' : Nat) : Turn σ → Turn σ → Prop
  | next {s s' : State σ} (h : s.Alike f extra R s') (hn : s.position = n + 1)
      (hn' : s'.position = n' + 1) : Alike f extra R O p q n n' (.next s) (.next s')
  | jumped {s s' : State σ} (h : s.Alike f extra R s') (hn : s'.position = f s.position) :
      Alike f extra R O p q n n' (.jumped s) (.jumped s')
  | returned {s s' : State σ} {value : Option Value} (h : s.Alike f extra R s') :
      Alike f extra R O p q n n' (.ended (.returned value) s) (.ended (.returned value) s')
  | threw {s s' : State σ} {exception : Value} {origin : Nat} (h : s.Alike f extra R s')
      (ho : O origin) : Alike f extra R O p q n n' (.ended (.threw exception) s)
        (q.raise exception (f origin) p.zones.length s')
  | broken {s s' : State σ} {fault : Fault} (h : s.Alike f extra R s') :
      Alike f extra R O p q n n' (.broken fault s) (.broken fault s')

variable {p q : Program σ} {extra : List Value} {R : List Event → List Event → Prop}
  {O : Nat → Prop} {s s' : State σ} {n' : Nat}

theorem alike_raise (h : Embeds f outer p q) (hs : s.Alike f extra R s') {exception : Value}
    {origin first : Nat} (ho : O origin) (hk : first ≤ p.zones.length) :
    Alike f extra R O p q n n' (p.raise exception origin first s)
      (q.raise exception (f origin) first s') := by
  have hg : guardian? q.zones (f origin) first =
      ((guardian? p.zones origin first).map fun z ↦ (z.1.move f, z.2)).or
        (guardian? q.zones (f origin) p.zones.length) := by
    rw [h.zones, guardian?_append_of_le (by simpa using hk), guardian?_move h.mono]
    simp
  cases hp : guardian? p.zones origin first with
  | none =>
    have hq : q.raise exception (f origin) first s' =
        q.raise exception (f origin) p.zones.length s' := by
      simp only [raise, hg, hp, Option.map_none, Option.none_or]
    rw [hq]
    simpa only [raise, hp] using Alike.threw hs ho
  | some z =>
    obtain ⟨z, number⟩ := z
    simp only [raise, hg, hp, Option.map_some, Option.some_or]
    cases hc : z.cleanup with
    | true =>
      simp only [Zone.move, hc, if_true]
      refine .jumped ⟨rfl, hs.slots, ?_, hs.heap, hs.world, hs.events⟩ rfl
      simp only [hs.pending, List.map_cons, Pending.move]
    | false =>
      simp only [Zone.move, hc]
      exact .jumped ⟨rfl, hs.slots, hs.pending, hs.heap, hs.world, hs.events⟩ rfl

theorem alike_raise_here (h : Embeds f outer p q) (hs : s.Alike f extra R s') {exception : Value}
    {m m' : Nat} (hm : m = n) (hm' : m' = f n) (hO : O n) :
    Alike f extra R O p q n n' (p.raise exception m 0 s) (q.raise exception m' 0 s') := by
  subst hm hm'
  exact alike_raise h hs hO (Nat.zero_le _)

theorem alike_depart (hs : s.Alike f extra R s') (target : Nat) (handlers : List Nat) :
    Alike f extra R O p q n n' (s.depart target handlers)
      (s'.depart (f target) (handlers.map f)) := by
  cases handlers with
  | nil => exact .jumped ⟨hs.stack, hs.slots, hs.pending, hs.heap, hs.world, hs.events⟩ rfl
  | cons h handlers =>
    refine .jumped ⟨hs.stack, hs.slots, ?_, hs.heap, hs.world, hs.events⟩ rfl
    simp only [hs.pending, List.map_cons, Pending.move]

theorem alike_jumpTo (h : Embeds f outer p q) (hs : s.Alike f extra R s') {target : Label}
    (ht : p.body.position? target = some k) :
    Alike f extra R O p q n n' (p.jumpTo target s) (q.jumpTo target s') := by
  simp only [jumpTo, ht, h.position target k ht]
  exact .jumped ⟨hs.stack, hs.slots, hs.pending, hs.heap, hs.world, hs.events⟩ rfl

theorem alike_next (hs : s.Alike f extra R s') (hn : s.position = n) (hn' : s'.position = n')
    (stack : List Value) : Alike f extra R O p q n n' (s.next stack) (s'.next stack) :=
  .next ⟨rfl, hs.slots, hs.pending, hs.heap, hs.world, hs.events⟩ (congrArg (· + 1) hn)
    (congrArg (· + 1) hn')

theorem alike_branch (h : Embeds f outer p q) (hs : s.Alike f extra R s') (hn : s.position = n)
    (hn' : s'.position = f n) {jump : Jump} {target : Label} (l : Label)
    (ht : p.body.position? target = some k)
    (ho : jump = .leave → handlersBetween outer (f n) (f k) = []) :
    Alike f extra R O p q n (f n) (p.branch jump target l s) (q.branch jump target l s') := by
  have hst {stack : List Value} : State.Alike f extra R { s with stack } { s' with stack } :=
    ⟨rfl, hs.slots, hs.pending, hs.heap, hs.world, hs.events⟩
  cases jump with
  | always => exact alike_jumpTo h hs ht
  | leave =>
    have hb : handlersBetween q.zones s'.position (f k) =
        (handlersBetween p.zones s.position k).map f := by
      rw [h.zones, handlersBetween_append, hn', hn,
        handlersBetween_move h.mono _ (le_refl (f n)) (h.mono n.lt_succ_self), ho rfl,
        List.append_nil]
    simp only [branch, ht, h.position target k ht, hb]
    exact alike_depart hst k _
  | ifTrue =>
    cases hk : s.stack with
    | nil => simp only [branch, hs.stack, hk]; exact .broken hs
    | cons v stack =>
      simp only [branch, hs.stack, hk]
      split
      · exact alike_jumpTo h hst ht
      · exact alike_next hs hn hn' stack
  | ifFalse =>
    cases hk : s.stack with
    | nil => simp only [branch, hs.stack, hk]; exact .broken hs
    | cons v stack =>
      simp only [branch, hs.stack, hk]
      split
      · exact alike_next hs hn hn' stack
      · exact alike_jumpTo h hst ht

theorem alike_endfinally (h : Embeds f outer p q) (hs : s.Alike f extra R s') (hp : s.Fits p)
    (hO : ∀ e o k, .unwind e o k ∈ s.pending → O o) (l : Label) :
    Alike f extra R O p q n n' (p.endfinally l s) (q.endfinally l s') := by
  cases hk : s.pending with
  | nil => simp only [endfinally, hs.pending, hk, List.map_nil]; exact .broken hs
  | cons x rest =>
    have hr : State.Alike f extra R { s with pending := rest }
        { s' with pending := rest.map (Pending.move f) } :=
      ⟨hs.stack, hs.slots, rfl, hs.heap, hs.world, hs.events⟩
    have hx := (fits_tail hp hk).1
    cases x with
    | leave target handlers =>
      simp only [endfinally, hs.pending, hk, List.map_cons, Pending.move]
      exact alike_depart hr target handlers
    | unwind exception origin nextZone =>
      simp only [endfinally, hs.pending, hk, List.map_cons, Pending.move]
      exact alike_raise h hr (hO exception origin nextZone (by simp [hk])) hx.2

def Grows (R : List Event → List Event → Prop) : Prop :=
  ∀ e a b, R a b → R (e :: a) (e :: b)

theorem alike_invoke (h : Embeds f outer p q) (hR : Grows R) (hs : s.Alike f extra R s')
    (hn : s.position = n) (hn' : s'.position = f n) (hO : O n) (callee : Callee)
    (l : Label) :
    Alike f extra R O p q n (f n) (p.invoke callee l s) (q.invoke callee l s') := by
  cases ha : popArgs? s.stack callee.arity with
  | none =>
    rw [invoke_underflow ha, invoke_underflow (hs.stack ▸ ha)]
    exact .broken hs
  | some args =>
    obtain ⟨args, stack⟩ := args
    have ha' : popArgs? s'.stack callee.arity = some (args, stack) := hs.stack ▸ ha
    cases hk : p.hooks.hook? callee with
    | some hook =>
      have hk' : q.hooks.hook? callee = some hook := h.hooks ▸ hk
      cases he : hookEvent? hook args with
      | none =>
        rw [invoke_badHook ha hk he, invoke_badHook ha' hk' he]
        exact .broken hs
      | some event =>
        rw [invoke_hook ha hk he, invoke_hook ha' hk' he]
        have hr : (s.record event).Alike f extra R (s'.record event) :=
          ⟨hs.stack, hs.slots, hs.pending, hs.heap, hs.world, hR _ _ _ hs.events⟩
        exact alike_next hr hn hn' stack
    | none =>
      have hk' : q.hooks.hook? callee = none := h.hooks ▸ hk
      have hc' : q.host.call callee args s'.heap s'.world =
          p.host.call callee args s.heap s.world := by rw [h.host, hs.heap, hs.world]
      rcases hc : p.host.call callee args s.heap s.world with ⟨reply, heap, world⟩
      have hr : State.Alike f extra R
          ({ s with stack, heap, world }.record (callEvent callee))
          ({ s' with stack, heap, world }.record (callEvent callee)) :=
        ⟨rfl, hs.slots, hs.pending, rfl, rfl, hR _ _ _ hs.events⟩
      cases reply with
      | back value =>
        rw [invoke_back ha hk hc, invoke_back ha' hk' (hc'.trans hc)]
        exact alike_next hr hn hn' _
      | raise exception =>
        rw [invoke_raise ha hk hc, invoke_raise ha' hk' (hc'.trans hc)]
        exact alike_raise_here h hr hn hn' hO

theorem alike_construct (h : Embeds f outer p q) (hR : Grows R) (hs : s.Alike f extra R s')
    (hn : s.position = n) (hn' : s'.position = f n) (hO : O n) (ctor : Callee)
    (l : Label) :
    Alike f extra R O p q n (f n) (p.construct ctor l s) (q.construct ctor l s') := by
  cases ha : popArgs? s.stack ctor.params.length with
  | none =>
    rw [construct_underflow ha, construct_underflow (hs.stack ▸ ha)]
    exact .broken hs
  | some args =>
    obtain ⟨args, stack⟩ := args
    have ha' : popArgs? s'.stack ctor.params.length = some (args, stack) := hs.stack ▸ ha
    have hc' : q.host.call ctor (.object s'.heap.next :: args) s'.heap.alloc.2 s'.world =
        p.host.call ctor (.object s.heap.next :: args) s.heap.alloc.2 s.world := by
      rw [h.host, hs.heap, hs.world]
    rcases hc : p.host.call ctor (.object s.heap.next :: args) s.heap.alloc.2 s.world with
      ⟨reply, heap, world⟩
    have hr : State.Alike f extra R ({ s with stack, heap, world }.record (callEvent ctor))
        ({ s' with stack, heap, world }.record (callEvent ctor)) :=
      ⟨rfl, hs.slots, hs.pending, rfl, rfl, hR _ _ _ hs.events⟩
    cases reply with
    | back value =>
      rw [construct_back ha hc, construct_back ha' (hc'.trans hc), hs.heap]
      exact alike_next hr hn hn' _
    | raise exception =>
      rw [construct_raise ha hc, construct_raise ha' (hc'.trans hc)]
      exact alike_raise_here h hr hn hn' hO

theorem alike_load (h : Embeds f outer p q) (hs : s.Alike f extra R s') (hn : s.position = n)
    (hn' : s'.position = f n) (hO : O n) (field : FieldName) (l : Label) :
    Alike f extra R O p q n (f n) (p.load field l s) (q.load field l s') := by
  have hr {stack : List Value} : State.Alike f extra R { s with stack } { s' with stack } :=
    ⟨rfl, hs.slots, hs.pending, hs.heap, hs.world, hs.events⟩
  rcases hst : s.stack with _ | ⟨v, stack⟩
  · simp only [load, hs.stack, hst]
    exact .broken hs
  · cases v with
    | object number =>
      simp only [load, hs.stack, hst, hs.heap]
      exact alike_next hs hn hn' _
    | null =>
      simp only [load, hs.stack, hst]
      exact alike_raise_here h hr hn hn' hO
    | int | str =>
      simp only [load, hs.stack, hst]
      exact .broken hs

theorem alike_store (h : Embeds f outer p q) (hs : s.Alike f extra R s') (hn : s.position = n)
    (hn' : s'.position = f n) (hO : O n) (field : FieldName) (l : Label) :
    Alike f extra R O p q n (f n) (p.store field l s) (q.store field l s') := by
  have hr {stack : List Value} : State.Alike f extra R { s with stack } { s' with stack } :=
    ⟨rfl, hs.slots, hs.pending, hs.heap, hs.world, hs.events⟩
  have hw {number : UInt32} {value : Value} :
      State.Alike f extra R { s with heap := s.heap.set number field value }
        { s' with heap := s'.heap.set number field value } :=
    ⟨hs.stack, hs.slots, hs.pending, by simp only [hs.heap], hs.world, hs.events⟩
  rcases hst : s.stack with _ | ⟨value, _ | ⟨v, stack⟩⟩
  · simp only [store, hs.stack, hst]
    exact .broken hs
  · simp only [store, hs.stack, hst]
    exact .broken hs
  · cases v with
    | object number =>
      simp only [store, hs.stack, hst]
      exact alike_next hw hn hn' _
    | null =>
      simp only [store, hs.stack, hst]
      exact alike_raise_here h hr hn hn' hO
    | int | str =>
      simp only [store, hs.stack, hst]
      exact .broken hs

theorem alike_arith (hs : s.Alike f extra R s') (hn : s.position = n) (hn' : s'.position = n')
    (op : Arith) (l : Label) : Alike f extra R O p q n n' (s.arith op l) (s'.arith op l) := by
  unfold State.arith
  rw [hs.stack]
  split
  · exact .broken hs
  · exact alike_next hs hn hn' _
  · exact .broken hs
  · exact .broken hs
  · exact .broken hs

theorem alike_exec (h : Embeds f outer p q) (hR : Grows R) (hs : s.Alike f extra R s')
    (hp : s.Fits p) (hn : s.position = n) (hn' : s'.position = f n) {i : Instr}
    (hi : p.body.code[n]? = some i) (hload : p.Loaded) (hO : O n)
    (hpend : ∀ e o k, .unwind e o k ∈ s.pending → O o)
    (ho : ∀ w l k, i.op = .branch .leave w l → p.body.position? l = some k →
      handlersBetween outer (f n) (f k) = []) :
    Alike f extra R O p q n (f n) (p.exec i s) (q.exec i s') := by
  have hm : i ∈ p.body.code := List.mem_of_getElem? hi
  have hslot := hload.sound.slot i hm
  obtain ⟨l, op⟩ := i
  cases op with
  | nop | ldnull | ldc | ldstr =>
    simp only [exec, hs.stack]
    exact alike_next hs hn hn' _
  | ldarg index =>
    simp only [exec, hs.stack, h.args]
    split
    · exact alike_next hs hn hn' _
    · exact .broken hs
  | ldloc slot =>
    have hk : slot.toNat < s.slots.length := hp.slots ▸ hslot slot rfl
    simp only [exec, hs.stack, hs.slots, List.getElem?_append_left hk]
    split
    · exact alike_next hs hn hn' _
    · exact .broken hs
  | stloc slot =>
    have hk : slot.toNat < s.slots.length := hp.slots ▸ hslot slot rfl
    cases hst : s.stack with
    | nil =>
      simp only [exec, hs.stack, hst]
      exact .broken hs
    | cons v stack =>
      have hk' : slot.toNat < (s.slots ++ extra).length := by
        rw [List.length_append]
        omega
      simp only [exec, hs.stack, hst, hs.slots, hk, hk', if_true, List.set_append_left _ _ hk]
      have hr : State.Alike f extra R { s with slots := s.slots.set slot.toNat v }
          { s' with slots := s.slots.set slot.toNat v ++ extra } :=
        ⟨hs.stack, rfl, hs.pending, hs.heap, hs.world, hs.events⟩
      exact alike_next hr hn hn' stack
  | pop =>
    cases hst : s.stack with
    | nil => simp only [exec, hs.stack, hst]; exact .broken hs
    | cons v stack => simp only [exec, hs.stack, hst]; exact alike_next hs hn hn' _
  | dup =>
    cases hst : s.stack with
    | nil => simp only [exec, hs.stack, hst]; exact .broken hs
    | cons v stack => simp only [exec, hs.stack, hst]; exact alike_next hs hn hn' _
  | ceq =>
    rcases hst : s.stack with _ | ⟨b, _ | ⟨a, stack⟩⟩
    · simp only [exec, hs.stack, hst]; exact .broken hs
    · simp only [exec, hs.stack, hst]; exact .broken hs
    · simp only [exec, hs.stack, hst]; exact alike_next hs hn hn' _
  | throw =>
    cases hst : s.stack with
    | nil => simp only [exec, hs.stack, hst]; exact .broken hs
    | cons v stack =>
      have hr : State.Alike f extra R { s with stack } { s' with stack } :=
        ⟨rfl, hs.slots, hs.pending, hs.heap, hs.world, hs.events⟩
      simp only [exec, hs.stack, hst]
      exact alike_raise_here h hr hn hn' hO
  | ret =>
    simp only [exec, hs.stack]
    exact .returned ⟨rfl, hs.slots, hs.pending, hs.heap, hs.world, hs.events⟩
  | arith op => exact alike_arith hs hn hn' op l
  | ldfld field => exact alike_load h hs hn hn' hO field l
  | stfld field => exact alike_store h hs hn hn' hO field l
  | call callee | callvirt callee => exact alike_invoke h hR hs hn hn' hO callee l
  | newobj ctor => exact alike_construct h hR hs hn hn' hO ctor l
  | branch jump width target =>
    obtain ⟨k, hk⟩ := hload.exists_position hm rfl
    exact alike_branch h hs hn hn' l hk fun hj ↦ ho width target k (hj ▸ rfl) hk
  | endfinally => exact alike_endfinally h hs hp hpend l

theorem alike_step (h : Embeds f outer p q) (hR : Grows R) (hs : s.Alike f extra R s')
    (hp : s.Fits p) (hn' : s'.position = f s.position) {i : Instr}
    (hi : p.body.code[s.position]? = some i) (hi' : q.body.code[f s.position]? = some i)
    (hload : p.Loaded) (hO : O s.position) (hpend : ∀ e o k, .unwind e o k ∈ s.pending → O o)
    (ho : ∀ w l k, i.op = .branch .leave w l → p.body.position? l = some k →
      handlersBetween outer (f s.position) (f k) = []) :
    Alike f extra R O p q s.position (f s.position) (p.step s) (q.step s') := by
  have hs₁ : State.Alike f extra R
      { s with path := ⟨s.position, i.label, s.stack⟩ :: s.path }
      { s' with path := ⟨s'.position, i.label, s'.stack⟩ :: s'.path } :=
    ⟨hs.stack, hs.slots, hs.pending, hs.heap, hs.world, hs.events⟩
  have hp₁ : State.Fits p { s with path := ⟨s.position, i.label, s.stack⟩ :: s.path } :=
    ⟨hp.slots, hp.pending⟩
  rw [step_eq_exec hi, step_eq_exec (hn' ▸ hi')]
  exact alike_exec h hR hs₁ hp₁ rfl hn' hi hload hO hpend ho

end Program

section

variable {σ : Type} {start : Nat} {front : List Op} {main : Instr → Op}
  {behind : Instr → List Op} {b c : Body} {xs : List Piece} {tail : List Instr} {n : Nat}

namespace Spliced

variable (h : Spliced start front main behind b.code xs)
include h

theorem getElem?_main (hc : c.code = rebuild xs tail) {i : Instr} (hi : b.code[n]? = some i) :
    c.code[place xs n]? = some ⟨i.label, main i⟩ := by
  obtain ⟨x, hx, hm, -⟩ := h.piece n i hi
  rw [hc, CilSpan.getElem?_main hx, hm]

theorem position? (hc : c.code = rebuild xs tail) (hn : c.labels.Nodup) {l : Label}
    (hl : b.position? l = some n) : c.position? l = some (place xs n) := by
  obtain ⟨i, hi, rfl⟩ := Body.exists_of_position? hl
  exact Body.position?_of_getElem? (i := ⟨i.label, main i⟩) hn (h.getElem?_main hc hi)

theorem zone_of (hc : c.code = rebuild xs tail) (hn : c.labels.Nodup) {r : Region} {z : Zone}
    (hz : Zone.Of b r z) : Zone.Of c r (z.move (place xs)) where
  cleanup := hz.cleanup
  start := h.position? hc hn hz.start
  stop := h.position? hc hn hz.stop
  handlerStart := h.position? hc hn hz.handlerStart
  handlerStop := h.position? hc hn hz.handlerStop

theorem zones_of (hc : c.code = rebuild xs tail) (hn : c.labels.Nodup) {rs : List Region}
    {zs : List Zone} (hz : List.Forall₂ (Zone.Of b) rs zs) :
    List.Forall₂ (Zone.Of c) rs (zs.map (Zone.move (place xs))) := by
  induction hz with
  | nil => exact .nil
  | cons hr _ ih => exact .cons (h.zone_of hc hn hr) ih

theorem embeds (hc : c.code = rebuild xs tail) (hn : c.labels.Nodup) (zs outer : List Zone)
    (hooks : Hooks) (args : List Value) (host : Host σ) :
    Program.Embeds (place xs) outer ⟨b, zs, hooks, args, host⟩
      ⟨c, zs.map (Zone.move (place xs)) ++ outer, hooks, args, host⟩ where
  mono := strictMono_place xs
  hooks := rfl
  args := rfl
  host := rfl
  zones := rfl
  position _ _ hl := h.position? hc hn hl

end Spliced

end

end CilSpan
