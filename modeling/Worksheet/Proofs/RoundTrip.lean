import Worksheet.Proofs.Presentation
/-! What is encoded is decoded, in either layout: an encoding says everything about a report and
nothing else. -/
namespace Worksheet.Report

open Json

/-- A report that is written in either layout is read back whole, whatever white space follows. -/
theorem readAll_write (r : Report) (layout : Layout) {space : List Char} (blank : Blank space) :
    readAll Report.read (r.toTree.write layout 0 ++ space) = .ok r :=
  (reads r.shown_tree).readAll blank (r.toTree.spread_write layout 0 space)

theorem decode_text (r : Report) (layout : Layout) : decode (r.toTree.text layout) = .ok r := by
  have read := r.readAll_write layout blank_nil
  rw [List.append_nil] at read
  rwa [decode, Tree.text, String.toList_ofList]

/-- What is written of a report in either layout is read as that report. So a text that is read and
written again is read as before, and two reports that are written alike are the same. -/
theorem written_whole :
    (∀ (r : Report) (layout : Layout), decode (r.toTree.text layout) = .ok r) ∧
    (∀ (text : String) (layout : Layout),
      (decode text).bind (fun r => decode (r.toTree.text layout)) = decode text) ∧
    (∀ (r s : Report) (layout : Layout), r.toTree.text layout = s.toTree.text layout ↔ r = s) := by
  refine ⟨decode_text, fun text layout => ?_, fun r s layout => ⟨fun same => ?_, ?_⟩⟩
  · cases decode text with
    | error e => rfl
    | ok r => exact decode_text r layout
  · have both : (.ok r : Except Fault Report) = .ok s := by
      rw [← decode_text r layout, same, decode_text s layout]
    exact Except.ok.inj both
  · rintro rfl
    rfl

end Worksheet.Report
