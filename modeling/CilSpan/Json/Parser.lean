import CilSpan.Json.Scanner

namespace CilSpan.Json

abbrev Member := Option String × Json

inductive Frame
  | arr (done : List Json)
  | obj (done : List Member) (key : Option String)

inductive Expect
  | value (frames : List Frame)
  | firstItem (frames : List Frame)
  | afterItem (done : List Json) (frames : List Frame)
  | firstKey (frames : List Frame)
  | key (done : List Member) (frames : List Frame)
  | colon (done : List Member) (key : Option String) (frames : List Frame)
  | afterMember (done : List Member) (frames : List Frame)
  | finished (j : Json)

def ofMembers (members : List Member) : Json :=
  match members.mapM fun (key, j) ↦ key.map (·, j) with
  | some members => .obj members
  | none => .unreadable

def deliver (j : Json) : List Frame → Expect
  | [] => .finished j
  | .arr done :: fs => .afterItem (j :: done) fs
  | .obj done key :: fs => .afterMember ((key, j) :: done) fs

def beginValue (fs : List Frame) : Token → Option Expect
  | .openArr => some (.firstItem fs)
  | .openObj => some (.firstKey fs)
  | .null => some (deliver .null fs)
  | .bool b => some (deliver (.bool b) fs)
  | .int n => some (deliver (.int n) fs)
  | .decimal text => some (deliver (.decimal text) fs)
  | .str s => some (deliver (.str s) fs)
  | .huge | .garbled => some (deliver .unreadable fs)
  | _ => none

def key? : Token → Option (Option String)
  | .str key => some (some key)
  | .garbled => some none
  | _ => none

def feed : Expect → Token → Option Expect
  | .value fs, t => beginValue fs t
  | .firstItem fs, .closeArr => some (deliver (.arr []) fs)
  | .firstItem fs, t => beginValue (.arr [] :: fs) t
  | .afterItem done fs, .comma => some (.value (.arr done :: fs))
  | .afterItem done fs, .closeArr => some (deliver (.arr done.reverse) fs)
  | .firstKey fs, .closeObj => some (deliver (.obj []) fs)
  | .firstKey fs, t => (key? t).map fun key ↦ .colon [] key fs
  | .key done fs, t => (key? t).map fun key ↦ .colon done key fs
  | .colon done key fs, .colon => some (.value (.obj done key :: fs))
  | .afterMember done fs, .comma => some (.key done fs)
  | .afterMember done fs, .closeObj => some (deliver (ofMembers done.reverse) fs)
  | _, _ => none

def feedAll : Expect → List Token → Option Expect
  | e, [] => some e
  | e, t :: ts =>
    match feed e t with
    | some e => feedAll e ts
    | none => none

def maxDepth : Nat := 127

def parse? (text : String) : Option Json :=
  match tokens? text.toList with
  | some tokens =>
    match feedAll (.value []) tokens with
    | some (.finished j) => some (j.clip maxDepth)
    | _ => none
  | none => none

end CilSpan.Json
