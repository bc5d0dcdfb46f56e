import CilSpan.Proofs.Machine.Confined
import CilSpan.Proofs.Span.Around

namespace CilSpan

/-- In a record with the newest event first, each start of a span has this name and comes right after
this event. -/
def Ordered (name : String) (before : Event) (events : List Event) : Prop :=
  ∀ newer n older, events = newer ++ .enter n :: older → n = name ∧ older.head? = some before

namespace Ordered

variable {name : String} {before : Event} {events new : List Event}

theorem nil : Ordered name before [] := fun _ _ _ h ↦ absurd h (by simp)

theorem cons (h : Ordered name before events) {e : Event}
    (he : ∀ n, e = .enter n → n = name ∧ events.head? = some before) :
    Ordered name before (e :: events) := by
  intro newer n older hevents
  cases newer with
  | nil =>
    obtain ⟨rfl, rfl⟩ := List.cons.inj hevents
    exact he n rfl
  | cons e' newer => exact h newer n older (List.cons.inj hevents).2

theorem append (h : Ordered name before events) (hnew : ∀ e ∈ new, ∀ n, e ≠ .enter n) :
    Ordered name before (new ++ events) := by
  induction new with
  | nil => exact h
  | cons e new ih =>
    obtain ⟨he, hnew⟩ := List.forall_mem_cons.1 hnew
    exact (ih hnew).cons fun n hn ↦ absurd hn (he n)

theorem getLast?_of_reverse (h : Ordered name before events) {front back : List Event} {n : String}
    (hevents : events.reverse = front ++ .enter n :: back) :
    n = name ∧ front.getLast? = some before := by
  rw [← List.head?_reverse]
  refine h back.reverse n front.reverse ?_
  rw [← List.reverse_reverse events, hevents]
  simp

end Ordered

namespace Framed

variable {σ : Type} {p : Program σ} {c : Body} {result tracer : TypeName} {name : String}
  {x : Frame} {start k n : Nat} {i : Instr} {callee : Callee} {label : Label} {s t : State σ}

inductive Part (b c : Body) (hooks : Hooks) (x : Frame) (start : Nat) (i : Instr) : Prop
  | old (hi : i ∈ b.code)
  | plain (hop : i.op.callee? = none) (ht : ∀ l, i.op.target? = some l → l = x.funnel)
  | enter (hcode : c.code[arrival x.pieces start + 1]? = some i)
  | exit (hop : i.op = .call hooks.exit)

theorem Part.idle {b c : Body} {hooks : Hooks} (hop : i.op.callee? = none)
    (ht : i.op.target? = none) : Part b c hooks x start i :=
  .plain hop fun l hl ↦ by
    rw [ht] at hl
    cases hl

theorem part_of_mem_tail {b c : Body} {hooks : Hooks} (hi : i ∈ x.tail result hooks) :
    Part b c hooks x start i := by
  simp only [Frame.tail, List.mem_cons] at hi
  obtain rfl | rfl | rfl | hi := hi
  · exact .idle rfl rfl
  · exact .exit rfl
  · exact .idle rfl rfl
  · unfold funnelCode at hi
    split at hi
    · obtain rfl := List.mem_singleton.1 hi
      exact .idle rfl rfl
    · obtain rfl | rfl := List.mem_pair.1 hi
      · exact .idle rfl rfl
      · exact .idle rfl rfl

section

variable (h : Framed p.body c start result name p.hooks x)
include h

theorem part_of_mem (hi : i ∈ c.code) : Part p.body c p.hooks x start i := by
  have hleave {l : Label} : Part p.body c p.hooks x start ⟨l, .branch .leave .long x.funnel⟩ :=
    .plain rfl fun _ hl ↦ (Option.some.inj hl).symm
  rw [h.code, rebuild, List.mem_append] at hi
  obtain hi | hi := hi
  · obtain ⟨y, hy, hi⟩ := List.mem_flatMap.1 hi
    obtain ⟨j, hj⟩ := List.getElem?_of_mem hy
    have hlt : j < p.body.code.length := h.spliced.length ▸ (List.getElem?_eq_some_iff.1 hj).1
    obtain ⟨z, hz, hmain, hbehind, hahead⟩ := h.spliced.piece j _ (List.getElem?_eq_getElem hlt)
    obtain rfl : y = z := Option.some.inj (hj.symm.trans hz)
    simp only [Piece.code, List.mem_append, List.mem_cons] at hi
    obtain hi | rfl | hi := hi
    · split at hahead
      · rename_i hstart
        obtain ⟨⟨l, _⟩, zs, hzs, rfl, hrest⟩ := List.map_eq_cons_iff.1 hahead
        obtain ⟨⟨l', _⟩, rfl, rfl⟩ := List.map_eq_singleton_iff.1 hrest
        have hcode := holds_ahead h.code hj
        rw [hzs] at hi hcode
        obtain rfl | rfl := List.mem_pair.1 hi
        · exact .idle rfl rfl
        · exact .enter (hstart ▸ hcode.tail.head)
      · rw [List.map_eq_nil_iff.1 hahead] at hi
        cases hi
    · rw [hmain]
      split
      · unfold returnOp
        split
        · exact hleave
        · exact .idle rfl rfl
      · exact .old (List.getElem_mem hlt)
    · have hop := List.mem_map_of_mem (f := Instr.op) hi
      rw [hbehind] at hop
      split at hop
      · unfold returnRest at hop
        split at hop
        · cases hop
        · obtain ⟨l, op⟩ := i
          obtain rfl : op = _ := List.mem_singleton.1 hop
          exact hleave
      · cases hop
  · exact part_of_mem_tail hi

variable (hp : p.Loaded) (hc : c.Sound) (hfree : p.body.hooked? p.hooks = none)
include hc

section

include hp

/-- Jumps lead to where old instructions stand now, or behind the old code. -/
theorem lands : (p.around c x start).Lands (fun _ ↦ True) fun m ↦ ∃ j, m = x.spot j where
  target n i l m _ hi hl hm := by
    cases h.part_of_mem (List.mem_of_getElem? hi) with
    | old hold =>
      obtain ⟨j, hj⟩ := hp.exists_position hold hl
      exact ⟨j, Option.some.inj (hm.symm.trans (h.spliced.position? h.code hc.nodup hj))⟩
    | plain _ ht =>
      obtain rfl := ht l hl
      exact ⟨_, Option.some.inj (hm.symm.trans (h.position?_funnel hc.nodup))⟩
    | enter hcode =>
      obtain ⟨-, l', -, -, hcall⟩ := h.exists_front
      obtain rfl := Option.some.inj (hcode.symm.trans hcall)
      cases hl
    | exit hop =>
      rw [hop] at hl
      cases hl
  handler z hz := by
    obtain hz | hz := List.mem_append.1 hz
    · obtain ⟨y, -, rfl⟩ := List.mem_map.1 hz
      exact ⟨_, rfl⟩
    · obtain rfl := List.mem_singleton.1 hz
      exact ⟨_, rfl⟩

end

include hfree in
theorem eq_of_enter (hooks : p.hooks = .on tracer) (hi : c.code[n]? = some i)
    (hcallee : i.op.callee? = some callee) (hhook : p.hooks.hook? callee = some .enter) :
    n = arrival x.pieces start + 1 := by
  cases h.part_of_mem (List.mem_of_getElem? hi) with
  | old hold =>
    rw [hook?_eq_none_of_hooked? hfree hold hcallee] at hhook
    cases hhook
  | plain hop =>
    rw [hop] at hcallee
    cases hcallee
  | enter hcode =>
    have hn := Body.position?_of_getElem? hc.nodup hi
    exact Option.some.inj (hn.symm.trans (Body.position?_of_getElem? hc.nodup hcode))
  | exit hop =>
    rw [hop] at hcallee
    obtain rfl := Option.some.inj hcallee
    have hexit : p.hooks.hook? p.hooks.exit = some .exit := hooks ▸ hook?_on tracer .exit
    rw [hexit] at hhook
    cases hhook

end

/-- Where control can come to the start of the span from, and what has been recorded by then. -/
structure Poised (x : Frame) (start : Nat) (name : String) (before : Event) (s : State σ) : Prop where
  ordered : Ordered name before s.events
  front : s.position = arrival x.pieces start → s.events.head? = some before
  enter : s.position = arrival x.pieces start + 1 →
    s.events.head? = some before ∧ s.stack.head? = some (.str name)
  pending : ∀ y ∈ s.pending, y.LeadsInto (fun _ ↦ True) fun m ↦ ∃ j, m = x.spot j

section

variable (h : Framed p.body c (k + 1) result name p.hooks x) (hp : p.Loaded) (hc : c.Sound)
  (hfree : p.body.hooked? p.hooks = none) (hi : p.body.code[k]? = some ⟨label, .call callee⟩)
include h hi

theorem arrival_eq : arrival x.pieces (k + 1) = x.spot k + 1 := by
  rw [h.arrival_spot_succ hi, if_neg nofun]

theorem spot_ne (j : Nat) :
    x.spot j ≠ arrival x.pieces (k + 1) ∧ x.spot j ≠ arrival x.pieces (k + 1) + 1 := by
  obtain ⟨-, -, hspot, -⟩ := h.exists_front
  have harrival := h.arrival_eq hi
  rcases Nat.lt_or_ge k j with hlt | hge
  · have hle : x.spot (k + 1) ≤ x.spot j := (strictMono_spot x).monotone hlt
    omega
  · have hle : x.spot j ≤ x.spot k := (strictMono_spot x).monotone hge
    omega

variable (hooks : p.hooks = .on tracer)
include hp hc hfree hooks

omit hp hi in
theorem ordered_step (hs : Poised x (k + 1) name (callEvent callee) s) :
    Ordered name (callEvent callee) ((p.around c x (k + 1)).step s).state.events := by
  by_cases hn : s.position = arrival x.pieces (k + 1) + 1
  · obtain ⟨hevent, hstack⟩ := hs.enter hn
    obtain ⟨stack, hst⟩ := List.head?_eq_some_iff.1 hstack
    obtain ⟨l, henter⟩ := h.step_enter hooks hn hst
    rw [henter]
    exact hs.ordered.cons fun n hn ↦ ⟨(Event.enter.inj hn).symm, hevent⟩
  · cases hcode : (p.around c x (k + 1)).body.code[s.position]? with
    | none =>
      simp only [Program.step, hcode]
      exact hs.ordered
    | some i =>
      obtain ⟨-, new, hnew, hhook⟩ := Program.logs_step hcode
      rw [hnew]
      refine hs.ordered.append fun e he n hen ↦ hn ?_
      obtain ⟨callee', hcallee, hk⟩ := hhook e he .enter (hen ▸ rfl)
      exact h.eq_of_enter hc hfree hooks hcode hcallee hk

theorem poised_of_goes (hs : Poised x (k + 1) name (callEvent callee) s)
    (hgo : ((p.around c x (k + 1)).step s).Goes t) :
    Poised x (k + 1) name (callEvent callee) t := by
  have hordered := h.ordered_step hc hfree hooks hs
  rw [Turn.state_of_goes hgo] at hordered
  obtain hnext | hjump := hgo
  · obtain ⟨j, hj⟩ := Program.exists_of_step_goes (.inl hnext)
    obtain ⟨hposition, hpending⟩ := Program.frame_of_next hj hnext
    refine ⟨hordered, fun ht ↦ ?_, fun ht ↦ ?_, hpending ▸ hs.pending⟩
    · have hn : s.position = x.spot k := by
        have harrival := h.arrival_eq hi
        omega
      have hcall := Program.step_eq_exec (p := p.around c x (k + 1))
        (hn ▸ h.getElem?_spot hi nofun)
      have hk : p.hooks.hook? callee = none :=
        hook?_eq_none_of_hooked? hfree (List.mem_of_getElem? hi) rfl
      rw [hnext] at hcall
      rw [Program.events_of_invoke_next (p := p.around c x (k + 1)) hk hcall.symm]
      rfl
    · have hn : s.position = arrival x.pieces (k + 1) := by omega
      obtain ⟨l, hname⟩ := h.step_name hn
      rw [hnext] at hname
      injection hname with hname
      subst hname
      exact ⟨hs.front hn, rfl⟩
  · obtain ⟨⟨j, hj⟩, hpending⟩ := (h.lands hp hc).of_jumped trivial hs.pending hjump
    obtain ⟨hfront, henter⟩ := h.spot_ne hi j
    exact ⟨hordered, fun ht ↦ absurd (hj.symm.trans ht) hfront,
      fun ht ↦ absurd (hj.symm.trans ht) henter, hpending⟩

theorem ordered_of_ends (hs : Poised x (k + 1) name (callEvent callee) s)
    {r : Except Fault Outcome} (he : (p.around c x (k + 1)).Ends n s r t) :
    Ordered name (callEvent callee) t.events := by
  induction he with
  | ended hstep | broken hstep =>
    have hordered := h.ordered_step hc hfree hooks hs
    rw [hstep] at hordered
    exact hordered
  | cons hgo _ ih => exact ih (h.poised_of_goes hp hc hfree hi hooks hs hgo)

end

theorem poised_start (h : Framed p.body c (k + 1) result name p.hooks x)
    (hi : p.body.code[k]? = some ⟨label, .call callee⟩) (heap : Heap) (world : σ) :
    Poised x (k + 1) name (callEvent callee) (State.start c heap world) := by
  have harrival := h.arrival_eq hi
  refine ⟨.nil, fun hn ↦ ?_, fun hn ↦ ?_, nofun⟩
  · dsimp only [State.start] at hn
    omega
  · dsimp only [State.start] at hn
    omega

end Framed

end CilSpan
