import HexAsm.Proofs.Lemmas.Pass
import HexAsm.Proofs.Lemmas.Silent

/-!
# Sources in a row

A pass that keeps going treats each line by itself. So the report on two sources in a row is the reports on both, with
the failures of the second further down, and silent lines between them only move what follows.
-/

namespace HexAsm

open HexAsm.Text

/-! ## Lines in a row -/

theorem length_sourceItems (source : String) : (sourceItems source).length = (lines source.toList).length := by
  rw [sourceItems, List.length_map, List.length_zipIdx]

theorem sourceItems_append {first : String} (h : WholeLines first.toList) (second : String) :
    sourceItems (first ++ second) =
      sourceItems first ++ (sourceItems second).map (Item.later (sourceItems first).length) := by
  rw [length_sourceItems, sourceItems, String.toList_append, lines_append h, List.zipIdx_append, List.map_append]
  congr 1
  rw [sourceItems, List.map_map, Nat.add_comm 1, ← List.map_snd_add_zipIdx_eq_zipIdx, List.map_map]
  rfl

theorem line_mem_sourceItems {source : String} {item : Item} (h : item ∈ sourceItems source) :
    1 ≤ item.line ∧ item.line ≤ (lines source.toList).length := by
  obtain ⟨⟨line, number⟩, hp, rfl⟩ := List.mem_map.mp h
  have hle : 1 ≤ number := List.le_snd_of_mem_zipIdx hp
  have hlt : number < 1 + (lines source.toList).length := List.snd_lt_add_of_mem_zipIdx hp
  exact ⟨hle, show number ≤ _ by omega⟩

/-! ## Reports -/

/-- The report on a source by a pass that keeps going. -/
def fullReport (settings : Settings) (source : String) : Report Word :=
  (assemble { settings with keepGoing := true } source).report

variable (settings : Settings)

theorem lines_fullReport (source : String) : (fullReport settings source).lines = (lines source.toList).length :=
  length_sourceItems source

theorem fullReport_append {first : String} (h : WholeLines first.toList) (second : String) :
    fullReport settings (first ++ second) = (fullReport settings first).append (fullReport settings second) := by
  simp only [fullReport, assemble]
  rw [sourceItems_append h, Pass.report_run_append, Pass.report_run_later fun _ _ => rfl, List.length_map]
  rfl

theorem fullReport_of_silent {source : String} (h : ∀ line ∈ lines source.toList, Line.Silent line) :
    fullReport settings source = ⟨(lines source.toList).length, [], []⟩ := by
  rw [← length_sourceItems]
  refine Pass.report_run_of_none fun item hitem => ?_
  obtain ⟨p, hp, rfl⟩ := List.mem_map.mp hitem
  have hsilent := h p.1 (List.fst_mem_of_mem_zipIdx hp)
  have hword : Word.ofLine (String.ofList (Line.tidy p.1)) = .ok none := by
    rw [Word.ofLine_eq_ok_none, String.toList_ofList, Line.silent_tidy]
    exact hsilent
  simp only [convertLine, String.toList_ofList, hword]
  rfl

theorem line_mem_failures {source : String} {f : Failure} (h : f ∈ (fullReport settings source).failures) :
    1 ≤ f.line ∧ f.line ≤ (fullReport settings source).lines := by
  obtain ⟨item, hitem, hline⟩ := Pass.mem_failures_run h
  rw [hline, lines_fullReport]
  exact line_mem_sourceItems hitem

/-- Silent lines between two sources move the failures after them, and nothing else. -/
theorem fullReport_insert {first inserted : String} (hfirst : WholeLines first.toList)
    (hinserted : WholeLines inserted.toList) (hsilent : ∀ line ∈ lines inserted.toList, Line.Silent line)
    (second : String) :
    let before := fullReport settings (first ++ second)
    let n := (lines inserted.toList).length
    fullReport settings (first ++ inserted ++ second) =
      ⟨before.lines + n, before.output,
        before.failures.map fun f => if f.line ≤ (fullReport settings first).lines then f else f.later n⟩ := by
  intro before n
  have hwhole : WholeLines (first ++ inserted).toList := by
    rw [String.toList_append]
    exact hfirst.append hinserted
  have hafter := fullReport_append settings hwhole second
  have hmiddle := fullReport_append settings hfirst inserted
  rw [fullReport_of_silent settings hsilent] at hmiddle
  have hbefore : before = _ := fullReport_append settings hfirst second
  have hkept : ∀ f ∈ (fullReport settings first).failures,
      (if f.line ≤ (fullReport settings first).lines then f else f.later n) = f :=
    fun f hf => if_pos (line_mem_failures settings hf).2
  have hmoved : ∀ f ∈ (fullReport settings second).failures,
      (if (f.later (fullReport settings first).lines).line ≤ (fullReport settings first).lines
        then f.later (fullReport settings first).lines
        else (f.later (fullReport settings first).lines).later n) =
      f.later ((fullReport settings first).lines + n) := by
    intro f hf
    -- lines count from one, so a failure of the second source lies past the first
    have hline : 1 ≤ f.line := (line_mem_failures settings hf).1
    rw [if_neg (by simp only [Failure.later]; omega), Failure.later_later]
  rw [hafter, hmiddle, hbefore]
  simp only [Report.append, List.map_nil, List.append_nil, List.map_append, List.map_map, Report.mk.injEq]
  refine ⟨by omega, trivial, ?_⟩
  rw [List.map_congr_left hkept, List.map_id']
  congr 1
  exact (List.map_congr_left hmoved).symm

/-- The report on two sources in a row, the first of whole lines, is made of the reports on both. Silent lines between
them change no word and no fault. -/
theorem assemble_append {first : String} (h : WholeLines first.toList) (second : String) :
    let report := fun source => (assemble { settings with keepGoing := true } source).report
    ((report (first ++ second)).lines = (report first).lines + (report second).lines ∧
        (report (first ++ second)).output = (report first).output ++ (report second).output ∧
        (report (first ++ second)).failures =
          (report first).failures ++
            (report second).failures.map fun f => { f with line := f.line + (report first).lines }) ∧
      ∀ inserted : String, WholeLines inserted.toList → (∀ line ∈ lines inserted.toList, Line.Silent line) →
        (report (first ++ inserted ++ second)).lines =
            (report (first ++ second)).lines + (lines inserted.toList).length ∧
          (report (first ++ inserted ++ second)).output = (report (first ++ second)).output ∧
          (report (first ++ inserted ++ second)).failures =
            (report (first ++ second)).failures.map fun f =>
              if f.line ≤ (report first).lines then f
              else { f with line := f.line + (lines inserted.toList).length } := by
  intro report
  have hjoined : report (first ++ second) = (report first).append (report second) := fullReport_append settings h second
  refine ⟨by rw [hjoined]; exact ⟨rfl, rfl, rfl⟩, fun inserted hinserted hsilent => ?_⟩
  have hinsert : report (first ++ inserted ++ second) = ⟨_, _, _⟩ :=
    fullReport_insert settings h hinserted hsilent second
  rw [hinsert]
  exact ⟨rfl, rfl, rfl⟩

/-- A comment and a blank line move the failure after them, and not the one before. -/
theorem assemble_append_comment :
    let report := fun source => (assemble {} source).report
    WholeLines "RES\nFOO\n".toList ∧ (report ("RES\nFOO\n" ++ "BAR")).failures.map (·.line) = [2, 3] ∧
      (report ("RES\nFOO\n" ++ "; note\n\n" ++ "BAR")).failures.map (·.line) = [2, 5] ∧
      (report ("RES\nFOO\n" ++ "; note\n\n" ++ "BAR")).output = [⟨0xB0000000⟩] := by
  intro report
  have hwhole : WholeLines "RES\nFOO\n".toList := by simp [WholeLines]
  have hnote : WholeLines "; note\n\n".toList := by simp [WholeLines]
  have hsilent : ∀ line ∈ lines "; note\n\n".toList, Line.Silent line := by decide
  obtain ⟨-, houtput, hfailures⟩ := (assemble_append {} hwhole "BAR").2 _ hnote hsilent
  refine ⟨hwhole, by decide, ?_, ?_⟩
  · exact (congrArg (List.map Failure.line) hfailures).trans (by decide)
  · exact houtput.trans (by decide)

end HexAsm
