import CilSpan.Instr
import CilSpan.Json.Record

namespace CilSpan

open Json

namespace TypeName

def toJson (t : TypeName) : Json := .obj [("namespace", .str t.space), ("name", .str t.name)]

def ofJson? (j : Json) : Option TypeName := do
  match ← record? ["namespace", "name"] j with
  | [some space, some name] => return ⟨← space.str?, ← name.str?⟩
  | _ => none

end TypeName

namespace Callee

def toJson (c : Callee) : Json :=
  .obj [("declaring_type", c.owner.toJson), ("name", .str c.name),
    ("params", ofList TypeName.toJson c.params), ("return_type", c.result.toJson),
    ("has_this", .bool c.hasThis)]

def ofJson? (j : Json) : Option Callee := do
  match ← record? ["declaring_type", "name", "params", "return_type", "has_this"] j with
  | [some owner, some name, some params, some result, some hasThis] =>
    return ⟨← TypeName.ofJson? owner, ← name.str?, ← list? TypeName.ofJson? params,
      ← TypeName.ofJson? result, ← hasThis.bool?⟩
  | _ => none

end Callee

namespace FieldName

def toJson (f : FieldName) : Json :=
  .obj [("declaring_type", f.owner.toJson), ("name", .str f.name), ("field_type", f.type.toJson)]

def ofJson? (j : Json) : Option FieldName := do
  match ← record? ["declaring_type", "name", "field_type"] j with
  | [some owner, some name, some type] =>
    return ⟨← TypeName.ofJson? owner, ← name.str?, ← TypeName.ofJson? type⟩
  | _ => none

end FieldName

namespace Label

def toJson (l : Label) : Json := ofUInt32 l.val

def ofJson? (j : Json) : Option Label := j.uint32?.map Label.mk

end Label

namespace Op

def branchWord : Jump → Width → String
  | .always, .long => "Br"
  | .always, .short => "BrS"
  | .ifTrue, .long => "Brtrue"
  | .ifTrue, .short => "BrtrueS"
  | .ifFalse, .long => "Brfalse"
  | .ifFalse, .short => "BrfalseS"
  | .leave, .long => "Leave"
  | .leave, .short => "LeaveS"

def arithWord : Arith → String
  | .add => "Add"
  | .sub => "Sub"
  | .mul => "Mul"
  | .clt => "Clt"
  | .cgt => "Cgt"

def toJson : Op → Json
  | nop => .str "Nop"
  | ldnull => .str "Ldnull"
  | ret => .str "Ret"
  | endfinally => .str "Endfinally"
  | throw => .str "Throw"
  | pop => .str "Pop"
  | dup => .str "Dup"
  | ceq => .str "Ceq"
  | arith op => .str (arithWord op)
  | ldarg index => .obj [("Ldarg", ofUInt16 index)]
  | ldloc slot => .obj [("Ldloc", ofUInt16 slot)]
  | stloc slot => .obj [("Stloc", ofUInt16 slot)]
  | ldc value => .obj [("LdcI4", ofInt32 value)]
  | ldstr text => .obj [("Ldstr", .str text)]
  | ldfld field => .obj [("Ldfld", field.toJson)]
  | stfld field => .obj [("Stfld", field.toJson)]
  | call callee => .obj [("Call", callee.toJson)]
  | callvirt callee => .obj [("Callvirt", callee.toJson)]
  | newobj ctor => .obj [("Newobj", ctor.toJson)]
  | branch jump width target => .obj [(branchWord jump width, target.toJson)]

def ofWord? : String → Option Op
  | "Nop" => some nop
  | "Ldnull" => some ldnull
  | "Ret" => some ret
  | "Endfinally" => some endfinally
  | "Throw" => some throw
  | "Pop" => some pop
  | "Dup" => some dup
  | "Ceq" => some ceq
  | "Add" => some (arith .add)
  | "Sub" => some (arith .sub)
  | "Mul" => some (arith .mul)
  | "Clt" => some (arith .clt)
  | "Cgt" => some (arith .cgt)
  | _ => none

def ofOperand? : String → Json → Option Op
  | "Ldarg", j => j.uint16?.map ldarg
  | "Ldloc", j => j.uint16?.map ldloc
  | "Stloc", j => j.uint16?.map stloc
  | "LdcI4", j => j.int32?.map ldc
  | "Ldstr", j => j.str?.map ldstr
  | "Ldfld", j => (FieldName.ofJson? j).map ldfld
  | "Stfld", j => (FieldName.ofJson? j).map stfld
  | "Call", j => (Callee.ofJson? j).map call
  | "Callvirt", j => (Callee.ofJson? j).map callvirt
  | "Newobj", j => (Callee.ofJson? j).map newobj
  | "Br", j => (Label.ofJson? j).map (branch .always .long)
  | "BrS", j => (Label.ofJson? j).map (branch .always .short)
  | "Brtrue", j => (Label.ofJson? j).map (branch .ifTrue .long)
  | "BrtrueS", j => (Label.ofJson? j).map (branch .ifTrue .short)
  | "Brfalse", j => (Label.ofJson? j).map (branch .ifFalse .long)
  | "BrfalseS", j => (Label.ofJson? j).map (branch .ifFalse .short)
  | "Leave", j => (Label.ofJson? j).map (branch .leave .long)
  | "LeaveS", j => (Label.ofJson? j).map (branch .leave .short)
  | _, _ => none

def ofJson? (j : Json) : Option Op := do
  let (word, operand) ← j.variant?
  match ofWord? word with
  | some op => if isBare operand then some op else none
  | none => ofOperand? word (← operand)

end Op

namespace Instr

def toJson (i : Instr) : Json := .obj [("id", i.label.toJson), ("op", i.op.toJson)]

def ofJson? (j : Json) : Option Instr := do
  match ← record? ["id", "op"] j with
  | [some label, some op] => return ⟨← Label.ofJson? label, ← Op.ofJson? op⟩
  | _ => none

end Instr

end CilSpan
