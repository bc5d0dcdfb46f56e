import CilSpan.Body.Edit
import CilSpan.Body.Layout

namespace CilSpan

/-- `made` holds every instruction of the session; `none` stands for one that was handed out. -/
structure Bench where
  body : Body
  made : List (Option Instr)
deriving DecidableEq, Repr

namespace Bench

inductive Act
  | create (op : Op)
  | push (op : Op)
  | pushMade (number : Nat)
  | spliceMade (index : Nat) (numbers : List Nat)
  | insert (index : Nat) (ops : List Op)
  | insertAhead (anchor : Label) (ops : List Op)
  | setOp (label : Label) (op : Op)
  | addLocal (type : TypeName)
  | addRegion (region : Region)
  | setInitLocals (value : Bool)
  | lengthen
  | shorten
deriving DecidableEq, Repr

inductive Answer
  | done
  | made (i : Instr)
  | label (l : Option Label)
  | labels (ls : List Label)
  | found (b : Bool)
  | slot (n : UInt16)
  | flawed (flaw : Flaw)
  | outOfRange (e : OutOfRange)
  | nothingMade
deriving DecidableEq, Repr

def start (b : Body) : Bench := ⟨b, []⟩

def take (s : Bench) (number : Nat) : Option Instr × Bench :=
  match s.made[number]? with
  | some (some i) => (some i, { s with made := s.made.set number none })
  | _ => (none, s)

def takeAll (s : Bench) : List Nat → Option (List Instr) × Bench
  | [] => (some [], s)
  | number :: numbers =>
    match s.take number with
    | (none, s) => (none, s)
    | (some i, s) =>
      match s.takeAll numbers with
      | (none, s) => (none, s)
      | (some is, s) => (some (i :: is), s)

def perform (s : Bench) : Act → Answer × Bench
  | .create op =>
    let (i, body) := s.body.create op
    (.made i, ⟨body, s.made ++ [some i]⟩)
  | .push op =>
    let (l, body) := s.body.push op
    (.label (some l), { s with body })
  | .pushMade number =>
    match s.take number with
    | (none, s) => (.nothingMade, s)
    | (some i, s) => (.label (some i.label), { s with body := s.body.append [i] })
  | .spliceMade index numbers =>
    match s.takeAll numbers with
    | (none, s) => (.nothingMade, s)
    | (some run, s) =>
      match s.body.splice index run with
      | .ok body => (.done, { s with body })
      | .error e => (.outOfRange e, s)
  | .insert index ops =>
    match s.body.insert index ops with
    | (.ok ls, body) => (.labels ls, { s with body })
    | (.error e, body) => (.outOfRange e, { s with body })
  | .insertAhead anchor ops =>
    let (l, body) := s.body.insertAhead anchor ops
    (.label l, { s with body })
  | .setOp l op => (.found (s.body.find? l).isSome, { s with body := s.body.setOp l op })
  | .addLocal type =>
    match s.body.addLocal type with
    | (.ok n, body) => (.slot n, { s with body })
    | (.error flaw, body) => (.flawed flaw, { s with body })
  | .addRegion r => (.done, { s with body := s.body.addRegion r })
  | .setInitLocals value => (.done, { s with body := { s.body with initLocals := value } })
  | .lengthen => (.done, { s with body := s.body.lengthen })
  | .shorten => (.done, { s with body := s.body.shorten })

end Bench

end CilSpan
