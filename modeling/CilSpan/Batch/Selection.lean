import CilSpan.Decl

namespace CilSpan

structure Config where
  namespaces : List String
  types : List String
  methods : List String
  failFast : Bool
  step : StepPattern
deriving DecidableEq, Repr

namespace Config

def standard : Config := ⟨[], [], [], false, .standard⟩

instance : Inhabited Config := ⟨standard⟩

def ofLists (namespaces types methods : List String) : Config :=
  { standard with namespaces, types, methods }

def passes (names : List String) (name : String) : Bool := names.isEmpty || names.contains name

end Config

structure Slot where
  type : Nat
  method : Nat
deriving DecidableEq, Repr

namespace Config

def includesType (c : Config) (t : TypeDecl) : Bool :=
  passes c.namespaces t.space && passes c.types t.name

def includesMethod (c : Config) (m : MethodDecl) : Bool := m.isConcrete && passes c.methods m.name

def select (c : Config) (module : ModuleDecl) : List Slot :=
  module.types.zipIdx.flatMap fun (t, type) ↦
    if c.includesType t then
      (t.methods.zipIdx.filter fun (m, _) ↦ c.includesMethod m).map fun (_, method) ↦
        ⟨type, method⟩
    else []

end Config

namespace ModuleDecl

def method? (module : ModuleDecl) (slot : Slot) : Option (Owner × MethodDecl) := do
  let t ← module.types[slot.type]?
  let m ← t.methods[slot.method]?
  return (t.toOwner, m)

def setMethod (module : ModuleDecl) (slot : Slot) (m : MethodDecl) : ModuleDecl :=
  { module with
    types := module.types.modify slot.type fun t ↦
      { t with methods := t.methods.set slot.method m } }

end ModuleDecl

end CilSpan
