import CilSpan.Body.Layout
import CilSpan.Machine.Run
import CilSpan.Proofs.Body.Sound

namespace CilSpan

namespace Op

@[simp] theorem target?_lengthen (op : Op) : op.lengthen.target? = op.target? := by
  cases op <;> rfl

@[simp] theorem slot?_lengthen (op : Op) : op.lengthen.slot? = op.slot? := by
  cases op <;> rfl

@[simp] theorem callee?_lengthen (op : Op) : op.lengthen.callee? = op.callee? := by
  cases op <;> rfl

end Op

theorem map_lengthen_shrinkPasses (n : Nat) (code : List Instr) :
    (shrinkPasses n code).map (fun i ↦ { i with op := i.op.lengthen }) =
      code.map fun i ↦ { i with op := i.op.lengthen } := by
  induction n generalizing code with
  | zero => rfl
  | succ n ih =>
    simp only [shrinkPasses]
    split
    · rfl
    · rw [ih, shrinkPass, List.map_map]
      apply List.map_congr_left
      intro i _
      simp only [Function.comp_apply, lengthen_shrink, label_shrink]

namespace Body

theorem lengthen_shorten (b : Body) : b.shorten.lengthen = b.lengthen := by
  simp only [lengthen, shorten, map_lengthen_shrinkPasses]

@[simp] theorem labels_lengthen (b : Body) : b.lengthen.labels = b.labels := by
  simp [labels, lengthen]

@[simp] theorem size_lengthen (b : Body) : b.lengthen.size = b.size := by
  simp [size, lengthen]

@[simp] theorem position?_lengthen (b : Body) (l : Label) :
    b.lengthen.position? l = b.position? l := by
  simp [position?, lengthen, List.findIdx?_map, Function.comp_def]

theorem getElem?_lengthen (b : Body) (n : Nat) :
    b.lengthen.code[n]? = b.code[n]?.map fun i ↦ { i with op := i.op.lengthen } := by
  simp [lengthen]

theorem instrFlaw?_lengthen (b : Body) (i : Instr) :
    b.lengthen.instrFlaw? { i with op := i.op.lengthen } = b.instrFlaw? i := by
  simp only [instrFlaw?, Op.target?_lengthen, Op.slot?_lengthen, labels_lengthen]
  rfl

theorem boundaryFlaw?_lengthen (b : Body) (index least : Nat) (ls : List Label) :
    b.lengthen.boundaryFlaw? index least ls = b.boundaryFlaw? index least ls := by
  induction ls generalizing least with
  | nil => rfl
  | cons l ls ih => simp only [boundaryFlaw?, position?_lengthen, ih]

@[simp] theorem flaw?_lengthen (b : Body) : b.lengthen.flaw? = b.flaw? := by
  have hc : b.lengthen.code.findSome? b.lengthen.instrFlaw? = b.code.findSome? b.instrFlaw? := by
    rw [show b.lengthen.code = b.code.map fun i ↦ { i with op := i.op.lengthen } from rfl,
      List.findSome?_map]
    exact congrArg (b.code.findSome? ·) (funext fun i ↦ instrFlaw?_lengthen b i)
  have hr : ∀ r k, b.lengthen.regionFlaw? k r = b.regionFlaw? k r := fun r k ↦
    boundaryFlaw?_lengthen b k 0 r.boundaries
  simp only [flaw?, labels_lengthen, hc, hr]
  rfl

theorem sound_of_lengthen_eq {b c : Body} (h : b.lengthen = c.lengthen) (hb : b.flaw? = none) :
    c.Sound := by
  rw [← flaw?_eq_none, ← flaw?_lengthen, ← h, flaw?_lengthen, hb]

theorem sound_lengthen {b : Body} (hb : b.flaw? = none) : b.lengthen.Sound :=
  flaw?_eq_none.1 ((flaw?_lengthen b).trans hb)

theorem zone_lengthen (b : Body) (r : Region) : b.lengthen.zone r = b.zone r := by
  simp only [zone, locate, position?_lengthen]

end Body

variable {σ : Type}

namespace Program

def lengthen (p : Program σ) : Program σ := { p with body := p.body.lengthen }

theorem jumpTo_lengthen (p : Program σ) (target : Label) (s : State σ) :
    p.lengthen.jumpTo target s = p.jumpTo target s := by
  simp only [jumpTo, lengthen, Body.position?_lengthen]

theorem branch_lengthen (p : Program σ) (jump : Jump) (target l : Label) (s : State σ) :
    p.lengthen.branch jump target l s = p.branch jump target l s := by
  simp only [branch, jumpTo_lengthen]
  simp only [lengthen, Body.position?_lengthen]

theorem exec_lengthen (p : Program σ) (i : Instr) (s : State σ) :
    p.lengthen.exec { i with op := i.op.lengthen } s = p.exec i s := by
  obtain ⟨l, op⟩ := i
  obtain ⟨position, stack, slots, pending, heap, world, path, events⟩ := s
  cases op with
  | branch jump width target => exact branch_lengthen p jump target l _
  | _ => rcases stack with _ | ⟨_, _ | ⟨_, _⟩⟩ <;> rfl

theorem step_lengthen (p : Program σ) (s : State σ) : p.lengthen.step s = p.step s := by
  have h : p.lengthen.body.code[s.position]? =
      p.body.code[s.position]?.map fun i ↦ { i with op := i.op.lengthen } :=
    p.body.getElem?_lengthen s.position
  unfold step
  rw [h]
  cases p.body.code[s.position]? with
  | none => rfl
  | some i => exact exec_lengthen p i _

theorem run_lengthen (p : Program σ) (budget left : Nat) (s : State σ) :
    p.lengthen.run budget left s = p.run budget left s := by
  induction left generalizing s with
  | zero => rfl
  | succ left ih => simp only [run, step_lengthen, ih]

theorem ofBody_lengthen (b : Body) (hooks : Hooks) (args : List Value) (host : Host σ) :
    ofBody b.lengthen hooks args host = (ofBody b hooks args host).map lengthen := by
  have hz : b.lengthen.regions.mapM b.lengthen.zone = b.regions.mapM b.zone :=
    congrArg (b.regions.mapM ·) (funext b.zone_lengthen)
  simp only [ofBody, hz]
  cases b.regions.mapM b.zone <;> rfl

end Program

namespace Body

theorem invoke_lengthen (b : Body) (hooks : Hooks) (host : Host σ) (call : Invocation)
    (heap : Heap) (world : σ) :
    b.lengthen.invoke hooks host call heap world = b.invoke hooks host call heap world := by
  have hs : State.start b.lengthen heap world = State.start b heap world := rfl
  unfold invoke
  rw [flaw?_lengthen, Program.ofBody_lengthen, hs]
  cases b.flaw? with
  | some flaw => rfl
  | none =>
    cases Program.ofBody b hooks call.args host with
    | error fault => rfl
    | ok p =>
      simp only [Except.map, Program.run_lengthen]

theorem invoke_eq_of_lengthen_eq {b c : Body} (h : b.lengthen = c.lengthen) (hooks : Hooks)
    (host : Host σ) (call : Invocation) (heap : Heap) (world : σ) :
    b.invoke hooks host call heap world = c.invoke hooks host call heap world := by
  rw [← invoke_lengthen b, h, invoke_lengthen c]

end Body

end CilSpan
