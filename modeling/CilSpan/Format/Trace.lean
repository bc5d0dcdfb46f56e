import CilSpan.Format.Instr
import CilSpan.Machine.Trace

namespace CilSpan

open Json

namespace Value

def toJson : Value → Json
  | int n => .obj [("Int", ofInt32 n)]
  | str s => .obj [("Str", .str s)]
  | null => .str "Null"
  | object number => .obj [("Object", ofUInt32 number)]

def ofJson? (j : Json) : Option Value := do
  match ← j.variant? with
  | ("Int", operand) => return int (← (← operand).int32?)
  | ("Str", operand) => return str (← (← operand).str?)
  | ("Null", operand) => if isBare operand then some null else none
  | ("Object", operand) => return object (← (← operand).uint32?)
  | _ => none

end Value

namespace Event

def toJson : Event → Json
  | enter name => .obj [("Begin", .obj [("name", .str name)])]
  | exit => .str "End"
  | asyncEnter id name => .obj [("AsyncBegin", .obj [("id", ofInt32 id), ("name", .str name)])]
  | asyncExit id name => .obj [("AsyncEnd", .obj [("id", ofInt32 id), ("name", .str name)])]
  | call routine => .obj [("Call", .obj [("method", .str routine)])]

def correlated? (j : Json) : Option (Int32 × String) := do
  match ← record? ["id", "name"] j with
  | [some id, some name] => return (← id.int32?, ← name.str?)
  | _ => none

def text? (field : String) (j : Json) : Option String := do
  match ← record? [field] j with
  | [some text] => text.str?
  | _ => none

def ofJson? (j : Json) : Option Event := do
  match ← j.variant? with
  | ("Begin", operand) => return enter (← text? "name" (← operand))
  | ("End", operand) => if isBare operand then some exit else none
  | ("AsyncBegin", operand) =>
    let (id, name) ← correlated? (← operand)
    return asyncEnter id name
  | ("AsyncEnd", operand) =>
    let (id, name) ← correlated? (← operand)
    return asyncExit id name
  | ("Call", operand) => return call (← text? "method" (← operand))
  | _ => none

end Event

namespace Outcome

def toJson : Outcome → Json
  | returned value => .obj [("Returned", ofOption Value.toJson value)]
  | threw exception => .obj [("Threw", exception.toJson)]

def ofJson? (j : Json) : Option Outcome := do
  match ← j.variant? with
  | ("Returned", operand) => return returned (← option? Value.ofJson? (some (← operand)))
  | ("Threw", operand) => return threw (← Value.ofJson? (← operand))
  | _ => none

end Outcome

namespace Visit

def toJson (v : Visit) : Json :=
  .obj [("position", ofUInt64 v.position), ("id", v.label.toJson),
    ("stack_depth", ofUInt64 v.depth)]

def ofJson? (j : Json) : Option Visit := do
  match ← record? ["position", "id", "stack_depth"] j with
  | [some position, some label, some depth] =>
    return ⟨← position.uint64?, ← Label.ofJson? label, ← depth.uint64?⟩
  | _ => none

end Visit

namespace Trace

def toJson (t : Trace) : Json :=
  .obj [("instructions", ofList Visit.toJson t.visits), ("events", ofList Event.toJson t.events)]

def ofJson? (j : Json) : Option Trace := do
  match ← record? ["instructions", "events"] j with
  | [some visits, some events] =>
    return ⟨← list? Visit.ofJson? visits, ← list? Event.ofJson? events⟩
  | _ => none

end Trace

end CilSpan
