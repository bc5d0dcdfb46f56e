import CilSpan.Format.Decl
import CilSpan.Proofs.Format.Restores

namespace CilSpan

open Json

theorem TypeName.restores : Restores TypeName.toJson TypeName.ofJson? 1 where
  back t := by simp [ofJson?, toJson, record?_obj, str?]
  fits t := by simp [toJson, fits_obj, fits_str]

theorem Callee.restores : Restores Callee.toJson Callee.ofJson? 3 where
  back c := by
    simp [ofJson?, toJson, record?_obj, TypeName.restores.back, TypeName.restores.list.back, str?,
      bool?]
  fits c := by
    simp [toJson, fits_obj, fits_str, fits_bool, TypeName.restores.list.fits,
      TypeName.restores.fits_le]

theorem FieldName.restores : Restores FieldName.toJson FieldName.ofJson? 2 where
  back f := by simp [ofJson?, toJson, record?_obj, TypeName.restores.back, str?]
  fits f := by simp [toJson, fits_obj, fits_str, TypeName.restores.fits]

theorem Label.restores : Restores Label.toJson Label.ofJson? 0 where
  back l := by rw [ofJson?, toJson, uint32?_ofUInt32, Option.map_some]
  fits l := fits_ofUInt32 l.val

namespace Op

theorem ofJson?_word {word : String} {op : Op} (h : ofWord? word = some op) :
    ofJson? (.str word) = some op := by
  simp [ofJson?, variant?, h, isBare]

theorem ofJson?_operand {word : String} {j : Json} {op : Op} (hw : ofWord? word = none)
    (h : ofOperand? word j = some op) : ofJson? (.obj [(word, j)]) = some op := by
  simp [ofJson?, variant?, hw, h]

theorem ofOperand?_branch (jump : Jump) (width : Width) (target : Label) :
    ofOperand? (branchWord jump width) target.toJson = some (.branch jump width target) := by
  have htarget := Label.restores.back target
  cases jump <;> cases width <;> exact congrArg (Option.map _) htarget

theorem restores : Restores toJson ofJson? 4 where
  back op := by
    cases op with
    | arith op => cases op <;> exact ofJson?_word rfl
    | ldarg index => exact ofJson?_operand rfl (congrArg (Option.map _) (uint16?_ofUInt16 index))
    | ldloc slot => exact ofJson?_operand rfl (congrArg (Option.map _) (uint16?_ofUInt16 slot))
    | stloc slot => exact ofJson?_operand rfl (congrArg (Option.map _) (uint16?_ofUInt16 slot))
    | ldc value => exact ofJson?_operand rfl (congrArg (Option.map _) (int32?_ofInt32 value))
    | ldstr text => exact ofJson?_operand rfl rfl
    | ldfld field =>
      exact ofJson?_operand rfl (congrArg (Option.map _) (FieldName.restores.back field))
    | stfld field =>
      exact ofJson?_operand rfl (congrArg (Option.map _) (FieldName.restores.back field))
    | call callee =>
      exact ofJson?_operand rfl (congrArg (Option.map _) (Callee.restores.back callee))
    | callvirt callee =>
      exact ofJson?_operand rfl (congrArg (Option.map _) (Callee.restores.back callee))
    | newobj ctor =>
      exact ofJson?_operand rfl (congrArg (Option.map _) (Callee.restores.back ctor))
    | branch jump width target =>
      refine ofJson?_operand ?_ (ofOperand?_branch jump width target)
      cases jump <;> cases width <;> rfl
    | _ => exact ofJson?_word rfl
  fits op := by
    cases op <;> simp [toJson, fits_obj, fits_str, fits_ofUInt16, fits_ofInt32,
      Label.restores.fits_le, FieldName.restores.fits_le, Callee.restores.fits_le]

end Op

theorem Instr.restores : Restores Instr.toJson Instr.ofJson? 5 where
  back i := by simp [ofJson?, toJson, record?_obj, Label.restores.back, Op.restores.back]
  fits i := by simp [toJson, fits_obj, Label.restores.fits_le, Op.restores.fits]

theorem Handler.restores : Restores Handler.toJson Handler.ofJson? 2 where
  back h := by
    cases h with
    | cleanup => rfl
    | rescue type => simp [ofJson?, toJson, variant?, TypeName.restores.back]
  fits h := by cases h <;> simp [toJson, fits_obj, fits_str, TypeName.restores.fits]

theorem Region.restores : Restores Region.toJson Region.ofJson? 3 where
  back r := by
    simp [ofJson?, toJson, record?_obj, Handler.restores.back, Label.restores.back]
  fits r := by
    simp [toJson, fits_obj, Handler.restores.fits, Label.restores.fits_le]

theorem local_restores : Restores localToJson localOfJson? 2 where
  back type := by simp [localOfJson?, localToJson, record?_obj, TypeName.restores.back]
  fits type := by simp [localToJson, fits_obj, TypeName.restores.fits]

/-- A body is restored as it is, whatever may be wrong with it. -/
theorem Body.restores : Restores Body.toJson Body.ofJson? 7 where
  back b := by
    simp [ofJson?, toJson, record?_obj, Instr.restores.list.back, local_restores.list.back,
      Region.restores.list.back, uint32?_ofUInt32, bool?]
  fits b := by
    simp [toJson, fits_obj, Instr.restores.list.fits, local_restores.list.fits_le,
      Region.restores.list.fits_le, fits_ofUInt32, fits_bool]

theorem Hooks.restores : Restores Hooks.toJson Hooks.ofJson? 4 where
  back h := by simp [ofJson?, toJson, record?_obj, Callee.restores.back]
  fits h := by simp [toJson, fits_obj, Callee.restores.fits]

end CilSpan
