import CilSpan.Format.Decl
import CilSpan.Proofs.Format.Bodies

namespace CilSpan

open Json

namespace MethodDecl

variable {n : Nat}

theorem body_restores (body : Option Body) :
    option? Body.ofJson? (some (ofOption Body.toJson body)) = some body :=
  Body.restores.option (fun _ ↦ nofun) body

theorem depth_machineToJson_le (m : MethodDecl) (h : m.toJson.depth ≤ n + 1) :
    (machineToJson m.machine).depth ≤ n := by
  cases m
  rw [toJson, depth, Nat.add_le_add_iff_right, depthMembers_le] at h
  exact h ("state_machine", machineToJson _) (by simp)

theorem depthItems_listToJson_le {type : TypeName} {methods : List MethodDecl}
    (h : (stateToJson ⟨type, methods⟩).depth ≤ n) : depthItems (listToJson methods) ≤ n := by
  simp only [stateToJson, depth, depthMembers, depthMember] at h
  omega

mutual

theorem read?_toJson : ∀ (m : MethodDecl) {n : Nat}, m.toJson.depth ≤ n →
    read? n m.toJson = some m
  | ⟨name, params, result, isStatic, isAbstract, attributes, body, machine⟩, n, h => by
    cases n with
    | zero => simp [toJson, depth] at h
    | succ n =>
      have hmachine := option?_machineToJson machine (depth_machineToJson_le _ h)
      simp [read?, toJson, fields, record?_obj, TypeName.restores.back, TypeName.restores.list.back,
        Restores.str.list.back, body_restores, hmachine, str?, bool?]

theorem option?_machineToJson : ∀ (m : Option (StateMachine MethodDecl)) {n : Nat},
    (machineToJson m).depth ≤ n → option? (machineOf? (read? n)) (some (machineToJson m)) = some m
  | none, _, _ => rfl
  | some m, n, h => by
    have hm := machineOf?_stateToJson m h
    have hnull : stateToJson m ≠ .null := by
      cases m
      exact nofun
    rw [machineToJson, option?_of_ne_null hnull, hm, Option.map_some]

theorem machineOf?_stateToJson : ∀ (m : StateMachine MethodDecl) {n : Nat},
    (stateToJson m).depth ≤ n → machineOf? (read? n) (stateToJson m) = some m
  | ⟨type, methods⟩, n, h => by
    have hmethods := mapM_listToJson methods (depthItems_listToJson_le h)
    simp [machineOf?, stateToJson, record?_obj, TypeName.restores.back, list?, hmethods]

theorem mapM_listToJson : ∀ (ms : List MethodDecl) {n : Nat}, depthItems (listToJson ms) ≤ n →
    (listToJson ms).mapM (read? n) = some ms
  | [], _, _ => rfl
  | m :: ms, n, h => by
    obtain ⟨hm, hms⟩ := Nat.max_le.1 h
    simp [listToJson, read?_toJson m hm, mapM_listToJson ms hms]

end

theorem ofJson?_toJson (m : MethodDecl) : ofJson? m.toJson = some m :=
  read?_toJson m (Nat.le_refl _)

mutual

theorem plain_toJson : ∀ m : MethodDecl, m.toJson.plain = true
  | ⟨name, params, result, isStatic, isAbstract, attributes, body, machine⟩ => by
    have hbody : (ofOption Body.toJson body).plain = true := by
      cases body with
      | none => rfl
      | some b => exact (Body.restores.fits b).1
    have hmachine := plain_machineToJson machine
    have hparams := (TypeName.restores.list.fits params).1
    have hresult := (TypeName.restores.fits result).1
    have hattributes := (Restores.str.list.fits attributes).1
    simp [toJson, plain, plainMembers, plainMember, hbody, hmachine, hparams, hresult, hattributes]

theorem plain_machineToJson : ∀ m : Option (StateMachine MethodDecl), (machineToJson m).plain = true
  | none => rfl
  | some m => plain_stateToJson m

theorem plain_stateToJson : ∀ m : StateMachine MethodDecl, (stateToJson m).plain = true
  | ⟨type, methods⟩ => by
    have hmethods := plain_listToJson methods
    simp [stateToJson, plain, plainMembers, plainMember, (TypeName.restores.fits type).1, hmethods]

theorem plain_listToJson : ∀ ms : List MethodDecl, plainItems (listToJson ms) = true
  | [] => rfl
  | m :: ms => by rw [listToJson, plainItems, plain_toJson m, plain_listToJson ms, Bool.and_self]

end

end MethodDecl

namespace TypeDecl

theorem ofJson?_toJson (t : TypeDecl) : ofJson? t.toJson = some t := by
  have hbase := TypeName.restores.option (fun _ ↦ nofun) t.base
  have hmethods : list? MethodDecl.ofJson? (ofList MethodDecl.toJson t.methods) = some t.methods :=
    mapM_map_of_back fun m _ ↦ m.ofJson?_toJson
  simp [ofJson?, toJson, record?_obj, hbase, hmethods, Restores.str.list.back, str?]

theorem plain_toJson (t : TypeDecl) : t.toJson.plain = true := by
  have hbase : (ofOption TypeName.toJson t.base).plain = true := by
    cases t.base with
    | none => rfl
    | some base => exact (TypeName.restores.fits base).1
  have hnested := (Restores.str.list.fits t.nested).1
  have hmethods : (ofList MethodDecl.toJson t.methods).plain = true :=
    plainItems_iff.2 (List.forall_mem_map.2 fun m _ ↦ m.plain_toJson)
  simp [toJson, plain, plainMembers, plainMember, hbase, hnested, hmethods]

end TypeDecl

namespace ModuleDecl

theorem ofJson?_toJson (m : ModuleDecl) : ofJson? m.toJson = some m := by
  have htypes : list? TypeDecl.ofJson? (ofList TypeDecl.toJson m.types) = some m.types :=
    mapM_map_of_back fun t _ ↦ t.ofJson?_toJson
  simp [ofJson?, toJson, record?_obj, htypes, str?]

theorem plain_toJson (m : ModuleDecl) : m.toJson.plain = true := by
  have htypes : (ofList TypeDecl.toJson m.types).plain = true :=
    plainItems_iff.2 (List.forall_mem_map.2 fun t _ ↦ t.plain_toJson)
  simp [toJson, plain, plainMembers, plainMember, htypes]

end ModuleDecl

end CilSpan
