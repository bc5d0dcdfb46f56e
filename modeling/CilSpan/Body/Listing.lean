import CilSpan.Body.Layout

namespace CilSpan

namespace Jump

def mnemonic : Jump → String
  | always => "br"
  | ifTrue => "brtrue"
  | ifFalse => "brfalse"
  | leave => "leave"

end Jump

namespace Arith

def mnemonic : Arith → String
  | add => "add"
  | sub => "sub"
  | mul => "mul"
  | clt => "clt"
  | cgt => "cgt"

end Arith

namespace Op

def mnemonic : Op → String
  | nop => "nop"
  | ldnull => "ldnull"
  | ret => "ret"
  | endfinally => "endfinally"
  | throw => "throw"
  | pop => "pop"
  | dup => "dup"
  | ceq => "ceq"
  | arith op => op.mnemonic
  | ldarg _ => "ldarg"
  | ldloc _ => "ldloc"
  | stloc _ => "stloc"
  | ldc _ => "ldc.i4"
  | ldstr _ => "ldstr"
  | ldfld _ => "ldfld"
  | stfld _ => "stfld"
  | call _ => "call"
  | callvirt _ => "callvirt"
  | newobj _ => "newobj"
  | branch jump .long _ => jump.mnemonic
  | branch jump .short _ => jump.mnemonic ++ ".s"

def operand? : Op → Option String
  | ldarg slot | ldloc slot | stloc slot => some (Text.ofNat slot.toNat)
  | ldc value => some (Text.ofInt value.toInt)
  | ldstr text => some (Text.quoted text)
  | ldfld field | stfld field => some s!"{field.owner}::{field.name}"
  | call callee | callvirt callee | newobj callee => some callee.text
  | branch _ _ target => some (toString target)
  | _ => none

def text (op : Op) : String :=
  match op.operand? with
  | some operand => op.mnemonic ++ " " ++ operand
  | none => op.mnemonic

end Op

namespace Instr

def text (i : Instr) : String := s!"{i.label}: {i.op.text}"

end Instr

namespace Handler

def text : Handler → String
  | cleanup => "Finally"
  | rescue type =>
    let space := Text.quoted type.space
    let name := Text.quoted type.name
    "Catch(TypeRef \x7b namespace: " ++ space ++ ", name: " ++ name ++ " \x7d)"

end Handler

namespace Body

def instrLine (table : List (Label × Nat)) (i : Instr) : String :=
  "IL_" ++ Text.hex4 ((offset? i.label table).getD 0) ++ " " ++ i.text ++ "\n"

def regionLine (r : Region) : String :=
  let kind := r.handler.text
  s!".{kind} try {r.tryStart}..{r.tryEnd} handler {r.handlerStart}..{r.handlerEnd}\n"

def listing (b : Body) : String :=
  String.join (b.code.map (instrLine b.offsets) ++ b.regions.map regionLine)

end Body

end CilSpan
