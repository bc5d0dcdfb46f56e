import CilSpan.Decl
import CilSpan.Format.Instr

namespace CilSpan

open Json

namespace Handler

def toJson : Handler → Json
  | cleanup => .str "Finally"
  | rescue type => .obj [("Catch", type.toJson)]

def ofJson? (j : Json) : Option Handler := do
  match ← j.variant? with
  | ("Finally", operand) => if isBare operand then some cleanup else none
  | ("Catch", operand) => return rescue (← TypeName.ofJson? (← operand))
  | _ => none

end Handler

namespace Region

def toJson (r : Region) : Json :=
  .obj [("kind", r.handler.toJson), ("try_start", r.tryStart.toJson), ("try_end", r.tryEnd.toJson),
    ("handler_start", r.handlerStart.toJson), ("handler_end", r.handlerEnd.toJson)]

def ofJson? (j : Json) : Option Region := do
  match ← record? ["kind", "try_start", "try_end", "handler_start", "handler_end"] j with
  | [some handler, some tryStart, some tryEnd, some handlerStart, some handlerEnd] =>
    return ⟨← Handler.ofJson? handler, ← Label.ofJson? tryStart, ← Label.ofJson? tryEnd,
      ← Label.ofJson? handlerStart, ← Label.ofJson? handlerEnd⟩
  | _ => none

end Region

def localToJson (type : TypeName) : Json := .obj [("ty", type.toJson)]

def localOfJson? (j : Json) : Option TypeName := do
  match ← record? ["ty"] j with
  | [some type] => TypeName.ofJson? type
  | _ => none

namespace Body

def toJson (b : Body) : Json :=
  .obj [("instructions", ofList Instr.toJson b.code), ("locals", ofList localToJson b.locals),
    ("regions", ofList Region.toJson b.regions), ("init_locals", .bool b.initLocals),
    ("next_id", ofUInt32 b.next)]

def ofJson? (j : Json) : Option Body := do
  match ← record? ["instructions", "locals", "regions", "init_locals", "next_id"] j with
  | [some code, some locals, some regions, some initLocals, some next] =>
    return ⟨← list? Instr.ofJson? code, ← list? localOfJson? locals,
      ← list? Region.ofJson? regions, ← initLocals.bool?, ← next.uint32?⟩
  | _ => none

end Body

namespace Hooks

def toJson (h : Hooks) : Json :=
  .obj [("begin", h.enter.toJson), ("end", h.exit.toJson), ("async_begin", h.asyncEnter.toJson),
    ("async_end", h.asyncExit.toJson)]

def ofJson? (j : Json) : Option Hooks := do
  match ← record? ["begin", "end", "async_begin", "async_end"] j with
  | [some enter, some exit, some asyncEnter, some asyncExit] =>
    return ⟨← Callee.ofJson? enter, ← Callee.ofJson? exit, ← Callee.ofJson? asyncEnter,
      ← Callee.ofJson? asyncExit⟩
  | _ => none

end Hooks

namespace MethodDecl

def fields : List String :=
  ["name", "params", "return_type", "is_static", "is_abstract", "attributes", "body",
    "state_machine"]

mutual

def toJson : MethodDecl → Json
  | ⟨name, params, result, isStatic, isAbstract, attributes, body, machine⟩ =>
    .obj [("name", .str name), ("params", ofList TypeName.toJson params),
      ("return_type", result.toJson), ("is_static", .bool isStatic),
      ("is_abstract", .bool isAbstract), ("attributes", ofList .str attributes),
      ("body", ofOption Body.toJson body), ("state_machine", machineToJson machine)]
termination_by structural m => m

def machineToJson : Option (StateMachine MethodDecl) → Json
  | none => .null
  | some m => stateToJson m
termination_by structural m => m

def stateToJson : StateMachine MethodDecl → Json
  | ⟨type, methods⟩ => .obj [("state_type", type.toJson), ("methods", .arr (listToJson methods))]
termination_by structural m => m

def listToJson : List MethodDecl → List Json
  | [] => []
  | m :: ms => m.toJson :: listToJson ms
termination_by structural ms => ms

end

def machineOf? (read : Json → Option MethodDecl) (j : Json) : Option (StateMachine MethodDecl) := do
  match ← record? ["state_type", "methods"] j with
  | [some type, some methods] => return ⟨← TypeName.ofJson? type, ← list? read methods⟩
  | _ => none

def read? : Nat → Json → Option MethodDecl
  | 0, _ => none
  | depth + 1, j => do
    match ← record? fields j with
    | [some name, some params, some result, some isStatic, some isAbstract, some attributes, body,
        machine] =>
      return ⟨← name.str?, ← list? TypeName.ofJson? params, ← TypeName.ofJson? result,
        ← isStatic.bool?, ← isAbstract.bool?, ← list? str? attributes,
        ← option? Body.ofJson? body, ← option? (machineOf? (read? depth)) machine⟩
    | _ => none

def ofJson? (j : Json) : Option MethodDecl := read? j.depth j

end MethodDecl

namespace TypeDecl

def toJson (t : TypeDecl) : Json :=
  .obj [("namespace", .str t.space), ("name", .str t.name),
    ("base_type", ofOption TypeName.toJson t.base), ("nested_types", ofList .str t.nested),
    ("methods", ofList MethodDecl.toJson t.methods)]

def ofJson? (j : Json) : Option TypeDecl := do
  match ← record? ["namespace", "name", "base_type", "nested_types", "methods"] j with
  | [some space, some name, base, some nested, some methods] =>
    return ⟨⟨← space.str?, ← name.str?, ← option? TypeName.ofJson? base, ← list? str? nested⟩,
      ← list? MethodDecl.ofJson? methods⟩
  | _ => none

end TypeDecl

namespace ModuleDecl

def toJson (m : ModuleDecl) : Json :=
  .obj [("name", .str m.name), ("types", ofList TypeDecl.toJson m.types)]

def ofJson? (j : Json) : Option ModuleDecl := do
  match ← record? ["name", "types"] j with
  | [some name, some types] => return ⟨← name.str?, ← list? TypeDecl.ofJson? types⟩
  | _ => none

end ModuleDecl

end CilSpan
