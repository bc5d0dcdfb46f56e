import CilSpan.Format.Report
import CilSpan.Proofs.Format.Restores

namespace CilSpan

open Json

theorem Change.restores : Restores Change.toJson Change.ofJson? 2 where
  back c := by
    cases c with
    | bracketed => rfl
    | correlated id => simp [ofJson?, toJson, variant?, record?_obj, int32?_ofInt32]
  fits c := by cases c <;> simp [toJson, fits_obj, fits_str, fits_ofInt32]

namespace Fate

theorem change?_toJson (c : Change) : change? c.toJson = some c := by
  cases c with
  | bracketed => rfl
  | correlated id => exact Change.restores.back (.correlated id)

theorem readable_toJson (f : Fate) : f.toJson.readable = true := by
  cases f with
  | instrumented change => cases change <;> rfl
  | _ => rfl

theorem status?_of (status field : String) (detail : Json) (h : field ≠ "status") :
    status? (.obj [("status", .str status), (field, detail)]) = some status := by
  simp [status?, record?, distinctKeys, member?, str?, h]

theorem detail?_of (status field : String) (detail : Json) (h : field ≠ "status") :
    detail? field (.obj [("status", .str status), (field, detail)]) = some detail := by
  simp [detail?, record?, distinctKeys, member?, h.symm]

theorem restores : Restores toJson ofJson? 3 where
  back f := by
    have hreadable := f.readable_toJson
    cases f with
    | instrumented change =>
      rw [toJson] at hreadable
      simp [ofJson?, toJson, hreadable, status?_of, detail?_of, change?_toJson]
    | skipped reason =>
      rw [toJson] at hreadable
      simp [ofJson?, toJson, hreadable, status?_of, detail?_of, str?]
    | failed text =>
      rw [toJson] at hreadable
      simp [ofJson?, toJson, hreadable, status?_of, detail?_of, str?]
  fits f := by
    cases f <;> simp [toJson, fits_obj, fits_str, Change.restores.fits]

end Fate

theorem Entry.restores : Restores Entry.toJson Entry.ofJson? 4 where
  back e := by simp [ofJson?, toJson, record?_obj, Fate.restores.back, str?]
  fits e := by simp [toJson, fits_obj, fits_str, Fate.restores.fits]

namespace Report

theorem ofJson?_toJson (r : Report) : ofJson? r.toJson = some { r with failures := [] } := by
  simp [ofJson?, toJson, record?_obj, Entry.restores.list.back, str?]

theorem fits_toJson (r : Report) : Fits 6 r.toJson := by
  simp [toJson, fits_obj, fits_str, Entry.restores.list.fits]

/-- A report that has been written out is read back without the causes of its failures, and says of
every method and of the whole batch what it said before. -/
theorem read_write (r : Report) : ∃ r', read? r.write = some r' ∧
    r' = { r with failures := [] } ∧ r'.hasFailures = r.hasFailures ∧
    r'.instrumentedCount = r.instrumentedCount ∧ r'.skippedCount = r.skippedCount ∧
    r'.failedCount = r.failedCount ∧ (∀ method, r'.fate? method = r.fate? method) ∧
    r'.verdict = r.verdict := by
  obtain ⟨hplain, hdepth⟩ := r.fits_toJson
  have hclip : r.toJson.clip maxDepth = r.toJson := clip_eq_self (hdepth.trans (by decide))
  have hparse : parse? r.write = some r.toJson := by rw [write, parse?_pretty hplain, hclip]
  refine ⟨{ r with failures := [] }, ?_, rfl, rfl, rfl, rfl, rfl, fun _ ↦ rfl, rfl⟩
  rw [read?, hparse, Option.bind_some, ofJson?_toJson]

end Report

end CilSpan
