import CilSpan.Format.Config
import CilSpan.Format.Trace
import CilSpan.Proofs.Format.Bodies

namespace CilSpan

open Json

theorem Value.restores : Restores Value.toJson Value.ofJson? 1 where
  back v := by
    cases v with
    | int n => simp [ofJson?, toJson, variant?, int32?_ofInt32]
    | str s => rfl
    | null => rfl
    | object number => simp [ofJson?, toJson, variant?, uint32?_ofUInt32]
  fits v := by cases v <;> simp [toJson, fits_obj, fits_str, fits_ofInt32, fits_ofUInt32]

namespace Event

theorem correlated?_of (id : Int32) (name : String) :
    correlated? (.obj [("id", ofInt32 id), ("name", .str name)]) = some (id, name) := by
  simp [correlated?, record?_obj, int32?_ofInt32, str?]

theorem text?_of (field text : String) : text? field (.obj [(field, .str text)]) = some text := by
  simp [text?, record?_obj, str?]

theorem restores : Restores toJson ofJson? 2 where
  back e := by
    cases e with
    | exit => rfl
    | enter name => simp [ofJson?, toJson, variant?, text?_of]
    | call routine => simp [ofJson?, toJson, variant?, text?_of]
    | asyncEnter id name => simp [ofJson?, toJson, variant?, correlated?_of]
    | asyncExit id name => simp [ofJson?, toJson, variant?, correlated?_of]
  fits e := by cases e <;> simp [toJson, fits_obj, fits_str, fits_ofInt32]

end Event

theorem Outcome.restores : Restores Outcome.toJson Outcome.ofJson? 2 where
  back o := by
    cases o with
    | returned value =>
      have hnull : ∀ v : Value, v.toJson ≠ .null := by
        intro v
        cases v <;> exact nofun
      have hvalue := Value.restores.option hnull value
      simp [ofJson?, toJson, variant?, hvalue]
    | threw exception => simp [ofJson?, toJson, variant?, Value.restores.back]
  fits o := by
    cases o with
    | returned value =>
      cases value <;> simp [toJson, ofOption, fits_obj, fits_null, Value.restores.fits]
    | threw exception => simp [toJson, fits_obj, Value.restores.fits]

theorem Visit.restores : Restores Visit.toJson Visit.ofJson? 1 where
  back v := by simp [ofJson?, toJson, record?_obj, uint64?_ofUInt64, Label.restores.back]
  fits v := by simp [toJson, fits_obj, fits_ofUInt64, Label.restores.fits]

theorem Trace.restores : Restores Trace.toJson Trace.ofJson? 4 where
  back t := by
    simp [ofJson?, toJson, record?_obj, Visit.restores.list.back, Event.restores.list.back]
  fits t := by
    simp [toJson, fits_obj, Visit.restores.list.fits_le, Event.restores.list.fits]

namespace Json

theorem recordPrefix?_obj {names : List String} {ms : List (String × Json)}
    (hn : ms.map Prod.fst = names) (hd : names.Nodup) :
    recordPrefix? names (.obj ms) = some (ms.map fun m ↦ some m.2) :=
  record?_obj hn hd

end Json

theorem StepPattern.restores : Restores StepPattern.toJson StepPattern.ofJson? 1 where
  back s := by
    simp [ofJson?, toJson, fields, recordPrefix?_obj, field?, uint64?_ofUInt64, str?]
  fits s := by simp [toJson, fits_obj, fits_str, fits_ofUInt64]

theorem Config.restores : Restores Config.toJson Config.ofJson? 2 where
  back c := by
    simp [ofJson?, toJson, fields, recordPrefix?_obj, field?, Restores.str.list.back,
      StepPattern.restores.back, bool?]
  fits c := by
    simp [toJson, fits_obj, fits_bool, Restores.str.list.fits, StepPattern.restores.fits]

end CilSpan
