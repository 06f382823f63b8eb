import HexAsm.Proofs.Lemmas.Listing
import HexAsm.Proofs.Lemmas.Silent

/-!
# Every line is accounted for

A pass that keeps going gives each line of a source a place in its report: a word, a failure, or none if the line is
silent. The report lists these contributions in the order of the lines.
-/

namespace HexAsm

open HexAsm.Text

/-- What a line with the given number adds to the words and to the failures of a report. -/
inductive Contributes (number : Nat) (line : List Char) : List Word → List Failure → Prop
  | word {w} : Word.ofLine (String.ofList (Line.tidy line)) = .ok (some w) → ¬ Line.Silent line →
      Contributes number line [w] []
  | failure {fault} : Word.ofLine (String.ofList (Line.tidy line)) = .error fault → ¬ Line.Silent line →
      Contributes number line [] [⟨number, String.ofList (trim line), .line fault⟩]
  | nothing : Line.Silent line → Contributes number line [] []

/-- A line counts once: as a word, as a failure, or as a silent line. -/
theorem Contributes.length {number : Nat} {line : List Char} {ws : List Word} {fs : List Failure}
    (h : Contributes number line ws fs) : ws.length + fs.length + (if Line.Silent line then 1 else 0) = 1 := by
  cases h with
  | word _ hs => simp [hs]
  | failure _ hs => simp [hs]
  | nothing hs => simp [hs]

/-- All lines together count once each. -/
theorem length_contributions {ps : List (List Char × Nat)} {cs : List (List Word × List Failure)}
    (h : List.Forall₂ (fun p c => Contributes p.2 p.1 c.1 c.2) ps cs) :
    (cs.flatMap (·.1)).length + (cs.flatMap (·.2)).length + (ps.filter fun p => Line.Silent p.1).length =
      ps.length := by
  induction h with
  | nil => rfl
  | @cons p c ps cs hc _ ih =>
      have hp := hc.length
      rw [List.flatMap_cons, List.flatMap_cons, List.length_append, List.length_append, List.length_cons,
        List.filter_cons]
      by_cases hs : Line.Silent p.1
      · rw [if_pos (decide_eq_true hs), List.length_cons]
        rw [if_pos hs] at hp
        omega
      · rw [if_neg (by simpa using hs)]
        rw [if_neg hs] at hp
        omega

/-! ## Steps -/

namespace Step

variable {α : Type}

/-- What a step adds to the products and to the failures of a report. -/
def contribution (s : Step α) : List α × List Failure := (s.product?.toList, s.failure?.toList)

/-- The failures of steps in the order of their lines are in this order too. -/
theorem pairwise_failures {steps : List (Step α)} (h : steps.Pairwise (·.item.line < ·.item.line)) :
    (steps.filterMap failure?).Pairwise (·.line < ·.line) := by
  refine List.Pairwise.filterMap _ ?_ h
  intro s s' hs f hf f' hf'
  rw [(line_of_failure? hf).1, (line_of_failure? hf').1]
  exact hs

end Step

theorem Pass.output_report {α : Type} (p : Pass α) :
    p.report.output = (p.steps.map Step.contribution).flatMap (·.1) := by
  rw [List.flatMap_map]
  exact List.filterMap_eq_flatMap_toList ..

theorem Pass.failures_report {α : Type} (p : Pass α) :
    p.report.failures = (p.steps.map Step.contribution).flatMap (·.2) := by
  rw [List.flatMap_map]
  exact List.filterMap_eq_flatMap_toList ..

/-- The step of a source line with its number. -/
def lineStep (p : List Char × Nat) : Step Word :=
  ⟨⟨p.2, String.ofList p.1⟩, convertLine ⟨p.2, String.ofList p.1⟩⟩

theorem assemble_keepGoing (settings : Settings) (source : String) :
    assemble { settings with keepGoing := true } source =
      ⟨(lines source.toList).length, ((lines source.toList).zipIdx 1).map lineStep⟩ := by
  simp only [assemble, Pass.run, if_true, sourceItems, List.map_map, List.length_map, List.length_zipIdx]
  rfl

theorem contributes_lineStep (p : List Char × Nat) :
    Contributes p.2 p.1 (lineStep p).contribution.1 (lineStep p).contribution.2 := by
  have hsilent : Word.ofLine (String.ofList (Line.tidy p.1)) = .ok none ↔ Line.Silent p.1 := by
    rw [Word.ofLine_eq_ok_none, String.toList_ofList, Line.silent_tidy]
  simp only [lineStep, Step.contribution, Step.product?, Step.failure?, convertLine, String.toList_ofList]
  cases hw : Word.ofLine (String.ofList (Line.tidy p.1)) with
  | error fault => exact .failure hw (fun hs => by simp [hsilent.mpr hs] at hw)
  | ok r =>
      cases r with
      | none => exact .nothing (hsilent.mp hw)
      | some w => exact .word hw (fun hs => by simp [hsilent.mpr hs] at hw)

theorem pairwise_lineStep (ls : List (List Char)) (n : Nat) :
    ((ls.zipIdx n).map lineStep).Pairwise (·.item.line < ·.item.line) := by
  have h : (List.map Prod.snd (ls.zipIdx n)).Pairwise (· < ·) := by
    rw [List.zipIdx_map_snd]
    exact List.pairwise_lt_range'
  exact List.pairwise_map.mpr (List.pairwise_map.mp h)

/-! ## The whole source -/

/-- In a pass that keeps going, each line adds a word, a failure or nothing to the report, in the order of the lines.
The lines that add nothing are the silent ones: tidying leaves nothing of them, and they are read as comments. -/
theorem assemble_accounts_for_lines (source : String) (settings : Settings) :
    let ls := lines source.toList
    let report := (assemble { settings with keepGoing := true } source).report
    report.lines = ls.length ∧
      (∃ cs : List (List Word × List Failure),
        List.Forall₂ (fun p c => Contributes p.2 p.1 c.1 c.2) (ls.zipIdx 1) cs ∧
          report.output = cs.flatMap (·.1) ∧ report.failures = cs.flatMap (·.2)) ∧
      report.failures.Pairwise (·.line < ·.line) ∧
      (∀ f ∈ report.failures, ∃ line, (line, f.line) ∈ ls.zipIdx 1 ∧ f.text = String.ofList (trim line)) ∧
      report.output.length + report.failures.length + (ls.filter (Line.Silent ·)).length = ls.length ∧
      ∀ line, (Line.Silent line ↔ Line.tidy line = []) ∧
        (Line.Silent line ↔ Instruction.ofLine (String.ofList line) = .ok Instruction.comment) := by
  intro ls report
  have hreport : report = Pass.report ⟨ls.length, (ls.zipIdx 1).map lineStep⟩ :=
    congrArg Pass.report (assemble_keepGoing settings source)
  have hcs : List.Forall₂ (fun p c => Contributes p.2 p.1 c.1 c.2) (ls.zipIdx 1)
      (((ls.zipIdx 1).map lineStep).map Step.contribution) := by
    rw [List.map_map, List.forall₂_map_right_iff]
    exact List.forall₂_same.mpr fun p _ => contributes_lineStep p
  have houtput : report.output = _ := hreport ▸ Pass.output_report _
  have hfailures : report.failures = _ := hreport ▸ Pass.failures_report _
  refine ⟨by rw [hreport]; rfl, ⟨_, hcs, houtput, hfailures⟩, ?_, ?_, ?_, fun line => ⟨Line.tidy_eq_nil.symm, ?_⟩⟩
  · rw [hreport]
    exact Step.pairwise_failures (pairwise_lineStep ls 1)
  · intro f hf
    rw [hreport] at hf
    obtain ⟨s, hs, hsf⟩ := List.mem_filterMap.mp hf
    obtain ⟨p, hp, rfl⟩ := List.mem_map.mp hs
    obtain ⟨hline, htext⟩ := Step.line_of_failure? hsf
    refine ⟨p.1, by rw [hline]; exact hp, ?_⟩
    rw [htext, lineStep, String.toList_ofList]
  · have hsilent := congrArg List.length (map_filter_zipIdx id (fun line => decide (Line.Silent line)) ls 1)
    rw [List.length_map, List.length_map] at hsilent
    have htotal := length_contributions hcs
    rw [List.length_zipIdx, ← houtput, ← hfailures] at htotal
    rw [← hsilent]
    exact htotal
  · constructor
    · intro hs
      exact Instruction.ofLine_of_silent (by rw [String.toList_ofList]; exact hs)
    · intro hs
      have := Instruction.silent_of_ofLine hs rfl
      rwa [String.toList_ofList] at this

end HexAsm
