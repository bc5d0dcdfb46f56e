namespace CilSpan

inductive Json
  | null
  | bool (b : Bool)
  | int (n : Int)
  | decimal (text : String)
  | str (s : String)
  /-- What cannot be read: a string with half of a surrogate pair in it, which is no text, an object
  with such a key, a number that is too large, or an array or object nested too deep. All of it may
  stand where nobody looks. -/
  | unreadable
  | arr (items : List Json)
  | obj (members : List (String × Json))
deriving Inhabited

namespace Json

mutual

def depth : Json → Nat
  | .arr items => depthItems items + 1
  | .obj members => depthMembers members + 1
  | _ => 0
termination_by structural j => j

def depthItems : List Json → Nat
  | [] => 0
  | j :: js => max j.depth (depthItems js)
termination_by structural js => js

def depthMembers : List (String × Json) → Nat
  | [] => 0
  | m :: ms => max (depthMember m) (depthMembers ms)
termination_by structural ms => ms

def depthMember : String × Json → Nat
  | (_, j) => j.depth
termination_by structural m => m

end

mutual

def readable : Json → Bool
  | .unreadable => false
  | .arr items => readableItems items
  | .obj members => readableMembers members
  | _ => true
termination_by structural j => j

def readableItems : List Json → Bool
  | [] => true
  | j :: js => j.readable && readableItems js
termination_by structural js => js

def readableMembers : List (String × Json) → Bool
  | [] => true
  | m :: ms => readableMember m && readableMembers ms
termination_by structural ms => ms

def readableMember : String × Json → Bool
  | (_, j) => j.readable
termination_by structural m => m

end

mutual

def clip (levels : Nat) : Json → Json
  | .arr items =>
    match levels with
    | 0 => .unreadable
    | levels + 1 => .arr (clipItems levels items)
  | .obj members =>
    match levels with
    | 0 => .unreadable
    | levels + 1 => .obj (clipMembers levels members)
  | j => j
termination_by structural j => j

def clipItems (levels : Nat) : List Json → List Json
  | [] => []
  | j :: js => clip levels j :: clipItems levels js
termination_by structural js => js

def clipMembers (levels : Nat) : List (String × Json) → List (String × Json)
  | [] => []
  | m :: ms => clipMember levels m :: clipMembers levels ms
termination_by structural ms => ms

def clipMember (levels : Nat) : String × Json → String × Json
  | (key, j) => (key, clip levels j)
termination_by structural m => m

end

mutual

theorem clip_eq_self {levels : Nat} : ∀ {j : Json}, j.depth ≤ levels → j.clip levels = j
  | .arr items, h => by
    cases levels with
    | zero => simp [depth] at h
    | succ levels =>
      have h : depthItems items ≤ levels := by simpa [depth] using h
      rw [clip, clipItems_eq_self h]
  | .obj members, h => by
    cases levels with
    | zero => simp [depth] at h
    | succ levels =>
      have h : depthMembers members ≤ levels := by simpa [depth] using h
      rw [clip, clipMembers_eq_self h]
  | .null, _ | .bool _, _ | .int _, _ | .decimal _, _ | .str _, _ | .unreadable, _ => rfl

theorem clipItems_eq_self {levels : Nat} :
    ∀ {js : List Json}, depthItems js ≤ levels → clipItems levels js = js
  | [], _ => rfl
  | j :: js, h => by
    have h := Nat.max_le.1 h
    rw [clipItems, clip_eq_self h.1, clipItems_eq_self h.2]

theorem clipMembers_eq_self {levels : Nat} :
    ∀ {ms : List (String × Json)}, depthMembers ms ≤ levels → clipMembers levels ms = ms
  | [], _ => rfl
  | (key, j) :: ms, h => by
    have h := Nat.max_le.1 h
    rw [clipMembers, clipMember, clip_eq_self h.1, clipMembers_eq_self h.2]

end

end Json

end CilSpan
