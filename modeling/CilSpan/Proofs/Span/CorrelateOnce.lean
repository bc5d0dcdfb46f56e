import CilSpan.Proofs.Span.CorrelateBehaviour
import Mathlib.Data.List.Basic

namespace CilSpan

namespace Body

def onward (b : Body) (l : Label) : List Instr := b.code.dropWhile fun i ↦ i.label ≠ l

theorem mem_drop_iff {b : Body} {i : Instr} {k : Nat} :
    i ∈ b.code.drop k ↔ ∃ n, k ≤ n ∧ b.code[n]? = some i := by
  constructor
  · intro h
    obtain ⟨m, hm⟩ := List.getElem?_of_mem h
    exact ⟨k + m, Nat.le_add_right k m, List.getElem?_drop.symm.trans hm⟩
  · rintro ⟨n, hk, hn⟩
    obtain ⟨m, rfl⟩ := Nat.exists_eq_add_of_le hk
    exact List.mem_of_getElem? (List.getElem?_drop.trans hn)

def protects (b : Body) (r : Region) (l : Label) : Bool := (b.position? l).any (b.guards r)

theorem onward_eq_drop (b : Body) (l : Label) : ∃ k, b.onward l = b.code.drop k :=
  ⟨_, List.dropWhile_eq_drop_findIdx_not⟩

theorem protects_of_getElem? {b : Body} (hb : b.labels.Nodup) {n : Nat} {i : Instr}
    (hi : b.code[n]? = some i) (r : Region) : b.protects r i.label = b.guards r n := by
  rw [protects, position?_of_getElem? hb hi, Option.any_some]

end Body

namespace Exits

/-- From the funnel on, no instruction branches and none is protected, and all completing exits lead
there. -/
structure Clear (exits : Exits) (b : Body) : Prop where
  straight : ∀ i ∈ b.onward exits.funnel, i.op.target? = none
  exposed : ∀ i ∈ b.onward exits.funnel, ∀ r ∈ b.regions, b.protects r i.label = false
  target : ∀ i ∈ b.code, i.label ∈ exits.completions →
    ∃ j ∈ b.onward exits.funnel, i.op.target? = some j.label

/-- Behind the completing exit `v` on a path comes another one. It comes after a cleanup handler that
`v` runs on its way, or after an `endfinally` behind the funnel, which takes up what an unfinished
handler was to do. -/
structure Relapse (exits : Exits) (b : Body) (v : Label) (rest : List Label) (w : Label) : Prop where
  first : v ∈ exits.completions
  second : w ∈ exits.completions
  mem : w ∈ rest
  cause : (∃ r ∈ b.regions, r.handler = .cleanup ∧ b.protects r v = true ∧
      rest.head? = some r.handlerStart) ∨
    ∃ x, ⟨x, .endfinally⟩ ∈ b.onward exits.funnel ∧ [x, w].Sublist rest

def Relapses (exits : Exits) (b : Body) (path : List Label) : Prop :=
  ∃ v rest w, (v :: rest) <:+ path ∧ exits.Relapse b v rest w

theorem not_relapses {exits : Exits} {b : Body}
    (hr : ∀ v ∈ exits.completions, ∀ r ∈ b.regions, r.handler = .cleanup → b.protects r v = false)
    (hx : ∀ i ∈ b.onward exits.funnel, i.op ≠ .endfinally) (path : List Label) :
    ¬exits.Relapses b path := by
  rintro ⟨v, rest, w, -, hv, -, -, ⟨r, hm, hc, hg, -⟩ | ⟨x, hm, -⟩⟩
  · rw [hr v hv r hm hc] at hg
    cases hg
  · exact hx _ hm rfl

theorem Relapses.two_le {exits : Exits} {b : Body} {path : List Label} (h : exits.Relapses b path) :
    2 ≤ path.countP (· ∈ exits.completions) := by
  obtain ⟨v, rest, w, hsuf, hv, hw, hmem, -⟩ := h
  have hsub : [v, w].Sublist path :=
    ((List.singleton_sublist.2 hmem).cons_cons v).trans hsuf.sublist
  have hcount := hsub.countP_le (p := (· ∈ exits.completions))
  simpa [hv, hw] using hcount

end Exits

theorem guardian?_eq_none {zones : List Zone} {n : Nat}
    (h : ∀ z ∈ zones, z.guarded.covers n = false) (first : Nat) : guardian? zones n first = none := by
  apply List.find?_eq_none.2
  intro z hz
  have hm := List.mem_of_mem_drop hz
  simp [h z.1 (List.fst_mem_of_mem_zipIdx hm)]

theorem pair_sublist_cons {α : Type} {a b c : α} {xs : List α} :
    [a, b].Sublist (c :: xs) ↔ [a, b].Sublist xs ∨ a = c ∧ b ∈ xs := by
  rw [List.cons_sublist_cons', List.singleton_sublist]

theorem exists_pair_sublist {α : Type} {P : α → Bool} {xs : List α} (h : 2 ≤ xs.countP P) :
    ∃ a b, P a = true ∧ P b = true ∧ [a, b].Sublist xs := by
  have hall : ∀ a ∈ xs.filter P, P a = true := fun a ha ↦ (List.mem_filter.1 ha).2
  have hsub : (xs.filter P).Sublist xs := List.filter_sublist
  rw [List.countP_eq_length_filter] at h
  match hf : xs.filter P with
  | [] | [_] =>
    rw [hf] at h
    simp at h
  | a :: b :: rest =>
    rw [hf] at hall hsub
    refine ⟨a, b, hall a (by simp), hall b (by simp), List.Sublist.trans ?_ hsub⟩
    exact ((List.nil_sublist rest).cons_cons b).cons_cons a

namespace Program

variable {σ : Type} {p : Program σ} {k n : Nat} {i : Instr} {s t : State σ}

def labels (p : Program σ) (left : Nat) (fell : Bool) (s : State σ) : List Label :=
  (p.beats left fell s).map (·.moment.label)

theorem labels_succ (hi : p.body.code[s.position]? = some i) (left : Nat) (fell : Bool) :
    ∃ rest, p.labels (left + 1) fell s = i.label :: rest ∧
      (rest = [] ∨ ∃ fell' t, (p.step s).Goes t ∧ rest = p.labels left fell' t) := by
  obtain ⟨rest, hbeats, hrest⟩ := beats_succ hi left fell
  refine ⟨rest.map (·.moment.label), by rw [labels, hbeats, List.map_cons], ?_⟩
  obtain rfl | ⟨fell', t, hgo, -, rfl⟩ := hrest
  · exact .inl rfl
  · exact .inr ⟨fell', t, hgo, rfl⟩

theorem labels_none (hi : p.body.code[s.position]? = none) (left : Nat) (fell : Bool) :
    p.labels left fell s = [] := by
  rw [labels, beats_none hi, List.map_nil]

theorem head_labels {l w : Label} (hl : p.body.position? l = some s.position) {left : Nat}
    {fell : Bool} (hmem : w ∈ p.labels left fell s) : (p.labels left fell s).head? = some l := by
  obtain ⟨i, hi, rfl⟩ := Body.exists_of_position? hl
  cases left with
  | zero => cases hmem
  | succ left =>
    obtain ⟨rest, hrest, -⟩ := labels_succ hi left fell
    rw [hrest, List.head?_cons]

structure ClearFrom (p : Program σ) (exits : Exits) (k : Nat) : Prop where
  onward : p.body.onward exits.funnel = p.body.code.drop k
  straight : ∀ n i, k ≤ n → p.body.code[n]? = some i → i.op.target? = none
  exposed : ∀ n i, k ≤ n → p.body.code[n]? = some i → ∀ z ∈ p.zones, z.guarded.covers n = false
  target : ∀ i ∈ p.body.code, i.label ∈ exits.completions → ∀ l n, i.op.target? = some l →
    p.body.position? l = some n → k ≤ n
  leave : ∀ i ∈ p.body.code, i.label ∈ exits.completions → i.op.isLeave = true

variable {exits : Exits}

theorem exists_clearFrom (hp : p.Loaded) (h : exits.Clear p.body)
    (hleave : ∀ i ∈ p.body.code, i.label ∈ exits.completions → i.op.isLeave = true) :
    ∃ k, p.ClearFrom exits k := by
  obtain ⟨k, hk⟩ := p.body.onward_eq_drop exits.funnel
  obtain ⟨hstraight, hexposed, htarget⟩ := h
  rw [hk] at hstraight hexposed htarget
  refine ⟨k, hk, ?_, ?_, ?_, hleave⟩
  · intro n i hn hi
    exact hstraight i (Body.mem_drop_iff.2 ⟨n, hn, hi⟩)
  · intro n i hn hi z hz
    obtain ⟨r, hr, hof⟩ := exists_of_mem_forall₂ hp.zones hz
    rw [← Body.guards_eq_covers hof, ← Body.protects_of_getElem? hp.sound.nodup hi]
    exact hexposed i (Body.mem_drop_iff.2 ⟨n, hn, hi⟩) r hr
  · intro i hi hl l n ht hn
    obtain ⟨j, hj, hjt⟩ := htarget i hi hl
    obtain ⟨m, hm, hj⟩ := Body.mem_drop_iff.1 hj
    obtain rfl := Option.some.inj (ht.symm.trans hjt)
    rw [Body.position?_of_getElem? hp.sound.nodup hj] at hn
    obtain rfl := Option.some.inj hn
    exact hm

namespace ClearFrom

variable (h : p.ClearFrom exits k)
include h

/-- Where the way is clear, control goes on with the instruction behind, or ends. -/
theorem position_eq (hk : k ≤ s.position) (hi : p.body.code[s.position]? = some i)
    (hop : i.op ≠ .endfinally) (hgo : (p.step s).Goes t) : t.position = s.position + 1 := by
  have hstraight := h.straight _ i hk hi
  have hexposed := h.exposed _ i hk hi
  rw [step_eq_exec hi] at hgo
  have heff := effect_exec p i { s with path := ⟨s.position, i.label, s.stack⟩ :: s.path }
  generalize p.exec i _ = turn at heff hgo
  cases heff with
  | next h hf hn =>
    obtain rfl := Turn.goes_next.1 hgo
    exact hn
  | branch h hb | leave h hb =>
    rw [hb] at hstraight
    cases hstraight
  | resume hb | unwind hb => exact absurd hb hop
  | raise h =>
    simp only [raise, guardian?_eq_none hexposed] at hgo
    exact absurd hgo Turn.not_goes_ended
  | returned => exact absurd hgo Turn.not_goes_ended
  | broken => exact absurd hgo Turn.not_goes_broken

/-- A completing exit leads to where the way is clear, or to a cleanup handler. -/
theorem completes (hp : p.Loaded) (hi : p.body.code[s.position]? = some i)
    (hl : i.label ∈ exits.completions) (hgo : (p.step s).Goes t) :
    k ≤ t.position ∨ ∃ r ∈ p.body.regions, r.handler = .cleanup ∧
      p.body.protects r i.label = true ∧ p.body.position? r.handlerStart = some t.position := by
  have hmem := List.mem_of_getElem? hi
  obtain ⟨l, op⟩ := i
  obtain ⟨width, target, rfl⟩ := Op.isLeave_iff.1 (h.leave _ hmem hl)
  obtain ⟨n, hn⟩ := hp.exists_position hmem rfl
  rw [step_eq_exec hi, exec_leave hn] at hgo
  -- With no handler on the way the jump ends at the target, otherwise it begins with the first one.
  cases hbetween : handlersBetween p.zones s.position n with
  | nil =>
    simp only [hbetween, State.depart, Turn.goes_jumped] at hgo
    refine .inl ?_
    rw [← hgo]
    exact h.target _ hmem hl target n rfl hn
  | cons first handlers =>
    simp only [hbetween, State.depart, Turn.goes_jumped] at hgo
    obtain ⟨z, hz, hc, hg, -, hstart⟩ :=
      mem_handlersBetween.1 (hbetween ▸ List.mem_cons_self : first ∈ handlersBetween _ _ n)
    obtain ⟨r, hr, hof⟩ := exists_of_mem_forall₂ hp.zones hz
    rw [hof.cleanup, decide_eq_true_eq] at hc
    refine .inr ⟨r, hr, hc, ?_, ?_⟩
    · rw [Body.protects_of_getElem? hp.sound.nodup hi, Body.guards_eq_covers hof, hg]
    · rw [hof.handlerStart, hstart, ← hgo]

/-- Only an `endfinally` leads back to a completing exit from where the way is clear. -/
theorem exists_endfinally {w : Label} (hw : w ∈ exits.completions) {left : Nat} {fell : Bool}
    (hk : k ≤ s.position) (hmem : w ∈ p.labels left fell s) :
    ∃ x, ⟨x, .endfinally⟩ ∈ p.body.onward exits.funnel ∧
      [x, w].Sublist (p.labels left fell s) := by
  induction left generalizing fell s with
  | zero => cases hmem
  | succ left ih =>
    cases hi : p.body.code[s.position]? with
    | none =>
      rw [labels_none hi] at hmem
      cases hmem
    | some i =>
      obtain ⟨l, op⟩ := i
      obtain ⟨rest, hrest, hlater⟩ := labels_succ hi left fell
      have hne : w ≠ l := by
        rintro rfl
        have hs := h.straight _ _ hk hi
        obtain ⟨width, target, rfl⟩ := Op.isLeave_iff.1 (h.leave _ (List.mem_of_getElem? hi) hw)
        cases hs
      rw [hrest] at hmem ⊢
      have hw' : w ∈ rest := (List.mem_cons.1 hmem).resolve_left hne
      by_cases hop : op = .endfinally
      · subst hop
        refine ⟨l, ?_, pair_sublist_cons.2 (.inr ⟨rfl, hw'⟩)⟩
        rw [h.onward]
        exact Body.mem_drop_iff.2 ⟨s.position, hk, hi⟩
      · obtain rfl | ⟨fell', t, hgo, rfl⟩ := hlater
        · cases hw'
        · have ht := h.position_eq hk hi hop hgo
          obtain ⟨x, hx, hsub⟩ := ih (by omega) hw'
          exact ⟨x, hx, hsub.cons l⟩

theorem relapses (hp : p.Loaded) {v w : Label} (hv : v ∈ exits.completions)
    (hw : w ∈ exits.completions) {left : Nat} {fell : Bool}
    (hsub : [v, w].Sublist (p.labels left fell s)) :
    exits.Relapses p.body (p.labels left fell s) := by
  induction left generalizing fell s with
  | zero => cases hsub
  | succ left ih =>
    cases hi : p.body.code[s.position]? with
    | none =>
      rw [labels_none hi] at hsub
      cases hsub
    | some i =>
      obtain ⟨rest, hrest, rfl | ⟨fell', t, hgo, rfl⟩⟩ := labels_succ hi left fell
      · rw [hrest] at hsub
        exact absurd hsub.length_le (by simp)
      · rw [hrest] at hsub ⊢
        -- Both exits come later, or the first one is executed here.
        obtain hlater | ⟨rfl, hmem⟩ := pair_sublist_cons.1 hsub
        · obtain ⟨v', rest', w', hsuf, hr⟩ := ih hlater
          exact ⟨v', rest', w', hsuf.trans (List.suffix_cons _ _), hr⟩
        · refine ⟨i.label, _, w, List.suffix_refl _, hv, hw, hmem, ?_⟩
          obtain hk | ⟨r, hr, hc, hg, hstart⟩ := h.completes hp hi hv hgo
          · exact .inr (h.exists_endfinally hw hk hmem)
          · exact .inl ⟨r, hr, hc, hg, head_labels hstart hmem⟩

end ClearFrom

end Program

section

variable {σ : Type} {b b' : Body} {id : Int32} {name : String} {tracer : TypeName}
  {pattern : StepPattern} {exits : Exits} {host : Host σ} {call : Invocation} {heap : Heap}
  {world : σ} {e : Execution}

theorem correlate_exits (hb : b.labels.Nodup)
    (h : b.correlate id name (.on tracer) pattern = (.ok exits, b')) :
    (∀ l ∈ exits.completions, l ∈ b.labels) ∧
      ∀ i ∈ b.code, i.label ∈ exits.completions → i.op.isLeave = true := by
  obtain ⟨c, xs, entry, -, -, -, -, -, hw⟩ := correlate_eq_ok hb h
  refine ⟨fun l hl ↦ b.labels_lengthen ▸ hw.mem_labels l hl, fun i hi hl ↦ ?_⟩
  have hleave := hw.leave { i with op := i.op.lengthen } (List.mem_map_of_mem hi) hl
  rwa [Op.isLeave_lengthen] at hleave

def Body.pathIn (b : Body) (t : Trace) : List Label := (t.visits.map Visit.label).filter (· ∈ b.labels)

/-- The span is exited once for each completing exit executed. -/
theorem count_asyncExit (hb : b.flaw? = none)
    (h : b.correlate id name (.on tracer) pattern = (.ok exits, b'))
    (he : (b'.invoke (.on tracer) host call heap world).answer = .ok e) :
    e.trace.count .asyncExit = (b.pathIn e.trace).countP (· ∈ exits.completions) := by
  obtain ⟨entry, old, -, -, hweaves⟩ := correlate_reflects hb h he
  rw [hweaves.exits, Body.pathIn, hweaves.path, List.countP_map]
  rfl

theorem relapses_of_two_le (hb : b.flaw? = none)
    (h : b.correlate id name (.on tracer) pattern = (.ok exits, b')) (hclear : exits.Clear b)
    (he : (b'.invoke (.on tracer) host call heap world).answer = .ok e)
    (htwo : 2 ≤ e.trace.count .asyncExit) : exits.Relapses b (b.pathIn e.trace) := by
  have hsound := Body.flaw?_eq_none.1 hb
  obtain ⟨entry, old, -, hold, hweaves⟩ := correlate_reflects hb h he
  obtain ⟨zs, hzs⟩ := hsound.exists_zones
  let p : Program σ := ⟨b, zs, .on tracer, call.args, host⟩
  have hpath : b.pathIn e.trace = p.labels call.budget true (.start b heap world) := by
    rw [Body.pathIn, hweaves.path, (Body.trace_eq_beats hsound hold).1, Body.beats_eq hzs,
      List.map_map]
    rfl
  obtain ⟨-, hleave⟩ := correlate_exits hsound.nodup h
  obtain ⟨k, hk⟩ := Program.exists_clearFrom (p := p) ⟨hsound, hzs⟩ hclear hleave
  rw [count_asyncExit hb h he, hpath] at htwo
  obtain ⟨v, w, hv, hw, hsub⟩ := exists_pair_sublist htwo
  rw [hpath]
  exact hk.relapses ⟨hsound, hzs⟩ (of_decide_eq_true hv) (of_decide_eq_true hw) hsub

theorem exit_once (hb : b.flaw? = none)
    (h : b.correlate id name (.on tracer) pattern = (.ok exits, b')) (hclear : exits.Clear b)
    (he : (b'.invoke (.on tracer) host call heap world).answer = .ok e)
    (hr : ¬exits.Relapses b (b.pathIn e.trace)) :
    e.trace.count .asyncExit ≤ 1 ∧
      ((∃ v ∈ e.trace.visits, v.label ∈ exits.completions) → e.trace.count .asyncExit = 1) := by
  have hone : e.trace.count .asyncExit ≤ 1 := by
    by_contra hmany
    exact hr (relapses_of_two_le hb h hclear he (by omega))
  refine ⟨hone, ?_⟩
  rintro ⟨v, hv, hl⟩
  obtain ⟨hlabels, -⟩ := correlate_exits (Body.flaw?_eq_none.1 hb).nodup h
  have hpos : 0 < (b.pathIn e.trace).countP (· ∈ exits.completions) := by
    rw [List.countP_pos_iff]
    refine ⟨v.label, List.mem_filter.2 ⟨List.mem_map_of_mem hv, ?_⟩, decide_eq_true hl⟩
    exact decide_eq_true (hlabels v.label hl)
  have hcount := count_asyncExit hb h he
  omega

/-- Every execution exits the span at most once, and once if it completes, provided that no completing
exit stands under a cleanup handler and no such handler ends behind the funnel. -/
theorem correlate_exit_once (hb : b.flaw? = none)
    (h : b.correlate id name (.on tracer) pattern = (.ok exits, b')) (hclear : exits.Clear b)
    (hr : ∀ v ∈ exits.completions, ∀ r ∈ b.regions, r.handler = .cleanup → b.protects r v = false)
    (hx : ∀ i ∈ b.onward exits.funnel, i.op ≠ .endfinally)
    (he : (b'.invoke (.on tracer) host call heap world).answer = .ok e) :
    e.trace.count .asyncExit ≤ 1 ∧
      ((∃ v ∈ e.trace.visits, v.label ∈ exits.completions) → e.trace.count .asyncExit = 1) :=
  exit_once hb h hclear he (Exits.not_relapses hr hx _)

/-- In general an execution exits the span at most once, and once if it completes, exactly if it does
not relapse. -/
theorem correlate_exit_once_iff (hb : b.flaw? = none)
    (h : b.correlate id name (.on tracer) pattern = (.ok exits, b')) (hclear : exits.Clear b)
    (he : (b'.invoke (.on tracer) host call heap world).answer = .ok e) :
    (e.trace.count .asyncExit ≤ 1 ∧
        ((∃ v ∈ e.trace.visits, v.label ∈ exits.completions) → e.trace.count .asyncExit = 1)) ↔
      ¬exits.Relapses b (b.pathIn e.trace) := by
  constructor
  · rintro ⟨hone, -⟩ hr
    have htwo := hr.two_le
    have hcount := count_asyncExit hb h he
    omega
  · intro hr
    exact exit_once hb h hclear he hr

end

/-- A step method that publishes its result from under a cleanup handler, and reports what that
handler raises. -/
def disposing : Body where
  code := [⟨⟨0⟩, .branch .leave .long ⟨5⟩⟩,
    ⟨⟨1⟩, .call (.static ⟨"App", "Resource"⟩ "Dispose" [] .void)⟩, ⟨⟨2⟩, .endfinally⟩,
    ⟨⟨3⟩, .call (.static ⟨"App", "Builder"⟩ "SetException" [.object] .void)⟩,
    ⟨⟨4⟩, .branch .leave .long ⟨6⟩⟩, ⟨⟨5⟩, .call (.static ⟨"App", "Builder"⟩ "SetResult" [] .void)⟩,
    ⟨⟨6⟩, .ret⟩]
  locals := []
  regions := [⟨.cleanup, ⟨0⟩, ⟨1⟩, ⟨1⟩, ⟨3⟩⟩, ⟨.rescue .exception, ⟨0⟩, ⟨3⟩, ⟨3⟩, ⟨5⟩⟩]
  initLocals := false
  next := 7

theorem correlate_disposing : (disposing.correlate 0 "Run" (.on ⟨"App", "Tracer"⟩) .standard).1 =
    .ok ⟨⟨5⟩, [⟨0⟩, ⟨4⟩], []⟩ := by decide +kernel

theorem clear_disposing : Exits.Clear ⟨⟨5⟩, [⟨0⟩, ⟨4⟩], []⟩ disposing :=
  ⟨by decide, by decide, by decide⟩

theorem correlate_exit_once_disposing :
    ∃ b' e, disposing.correlate 0 "Run" (.on ⟨"App", "Tracer"⟩) .standard =
        (.ok ⟨⟨5⟩, [⟨0⟩, ⟨4⟩], []⟩, b') ∧
      (b'.invoke (.on ⟨"App", "Tracer"⟩) .idle ⟨[], 40⟩ .empty ()).answer = .ok e ∧
      e.trace.count .asyncExit = 1 ∧
      ¬Exits.Relapses ⟨⟨5⟩, [⟨0⟩, ⟨4⟩], []⟩ disposing (disposing.pathIn e.trace) := by
  have hrun : ((disposing.correlate 0 "Run" (.on ⟨"App", "Tracer"⟩) .standard).2.invoke
      (.on ⟨"App", "Tracer"⟩) .idle ⟨[], 40⟩ .empty ()).answer.toOption.map
        (·.trace.count .asyncExit) = some 1 := by decide +kernel
  obtain ⟨b', hb⟩ : ∃ b', disposing.correlate 0 "Run" (.on ⟨"App", "Tracer"⟩) .standard =
      (.ok ⟨⟨5⟩, [⟨0⟩, ⟨4⟩], []⟩, b') := ⟨_, Prod.ext correlate_disposing rfl⟩
  rw [hb] at hrun
  cases he : (b'.invoke (.on ⟨"App", "Tracer"⟩) .idle ⟨[], 40⟩ .empty ()).answer with
  | error =>
    rw [he] at hrun
    cases hrun
  | ok e =>
    rw [he] at hrun
    have hone : e.trace.count .asyncExit = 1 := Option.some.inj hrun
    exact ⟨b', e, hb, he, hone,
      (correlate_exit_once_iff (by decide) hb clear_disposing he).1 ⟨hone.le, fun _ ↦ hone⟩⟩

def disposalFails : Host Unit where
  call callee _ heap world :=
    if callee.name = "Dispose" then (.raise (.str "disposal failed"), heap, world)
    else (callee.zeroReply, heap, world)

theorem correlate_exit_twice :
    ∃ b' e, disposing.flaw? = none ∧
      disposing.correlate 0 "Run" (.on ⟨"App", "Tracer"⟩) .standard =
        (.ok ⟨⟨5⟩, [⟨0⟩, ⟨4⟩], []⟩, b') ∧
      Exits.Clear ⟨⟨5⟩, [⟨0⟩, ⟨4⟩], []⟩ disposing ∧
      (b'.invoke (.on ⟨"App", "Tracer"⟩) disposalFails ⟨[], 40⟩ .empty ()).answer = .ok e ∧
      e.trace.count .asyncExit = 2 := by
  have hrun : ((disposing.correlate 0 "Run" (.on ⟨"App", "Tracer"⟩) .standard).2.invoke
      (.on ⟨"App", "Tracer"⟩) disposalFails ⟨[], 40⟩ .empty ()).answer.toOption.map
        (·.trace.count .asyncExit) = some 2 := by decide +kernel
  obtain ⟨b', hb⟩ : ∃ b', disposing.correlate 0 "Run" (.on ⟨"App", "Tracer"⟩) .standard =
      (.ok ⟨⟨5⟩, [⟨0⟩, ⟨4⟩], []⟩, b') := ⟨_, Prod.ext correlate_disposing rfl⟩
  rw [hb] at hrun
  cases he : (b'.invoke (.on ⟨"App", "Tracer"⟩) disposalFails ⟨[], 40⟩ .empty ()).answer with
  | error =>
    rw [he] at hrun
    cases hrun
  | ok e =>
    rw [he] at hrun
    exact ⟨b', e, by decide, hb, clear_disposing, he, Option.some.inj hrun⟩

end CilSpan
