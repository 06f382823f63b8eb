import HexAsm.Proofs.Lemmas.Listing

/-!
# Round trips

A program that was assembled is listed again without a failure, and the listing is assembled to the same words. An
image may hold words that no line is assembled to. Its listing gives their canonical forms, and fails exactly at the
words with a register that a line cannot name.
-/

namespace HexAsm

open HexAsm.Text

theorem oneLine_of_faithful {ls : List Listing} (h : ∀ x ∈ ls, x.Faithful) : ∀ x ∈ ls, OneLine x.text := by
  intro x hx
  obtain ⟨i, _, ht⟩ := h x hx
  rw [ht]
  exact i.oneLine_text

/-! ## From a source -/

theorem report_disassemble_render {ws : List Word} {t : Word → String}
    (h : ∀ w ∈ ws, ∀ n, convertEntry ⟨n, w.text⟩ = .ok (some ⟨n, w, t w⟩)) (settings : Settings) (withHeader : Bool) :
    (disassemble settings (Image.render ws withHeader)).report =
      ⟨ws.length, (ws.zipIdx (if withHeader then 3 else 1)).map fun p => ⟨p.2, p.1, t p.1⟩, []⟩ := by
  rw [disassemble, imageItems_render, Pass.report_run_of_ok, List.length_zipIdx]
  exact fun p hp => h p.1 (List.fst_mem_of_mem_zipIdx hp) p.2

theorem report_assemble_source {ls : List Listing} (hls : ∀ x ∈ ls, x.Faithful)
    (h : ∀ x ∈ ls, ∀ n, convertLine ⟨n, x.text⟩ = .ok (some x.word)) (settings : Settings) :
    (assemble settings (Listing.source ls)).report = ⟨ls.length, ls.map (·.word), []⟩ := by
  rw [assemble, sourceItems_source (oneLine_of_faithful hls), Pass.report_run_of_ok (g := fun p => p.1.word),
    List.length_zipIdx, map_fst_zipIdx]
  exact fun p hp => h p.1 (List.fst_mem_of_mem_zipIdx hp) p.2

/-- The words of a source, in an image, are listed without a failure, one on each line, and the listing is assembled
to the same words. -/
theorem assemble_disassemble_assemble (source : String) (settings settings' settings'' : Settings)
    (withHeader : Bool) :
    let words := (assemble settings source).report.output
    let listing := (disassemble settings' (Image.render words withHeader)).report
    listing.failures = [] ∧
      listing.output.map (fun x => (x.word, x.line)) = words.zipIdx (if withHeader then 3 else 1) ∧
      (assemble settings'' (Listing.source listing.output)).report = ⟨words.length, words, []⟩ := by
  intro words listing
  have htext : ∀ w ∈ words, ∃ t, (∀ n, convertEntry ⟨n, w.text⟩ = .ok (some ⟨n, w, t⟩)) ∧
      ∀ n, convertLine ⟨n, t⟩ = .ok (some w) := by
    intro w hw
    obtain ⟨item, _, h⟩ := Pass.mem_output_run hw
    obtain ⟨i, hi, hback⟩ := convertLine_emitted h
    exact ⟨i.text, convertEntry_text hi, hback⟩
  -- The listing of a word does not depend on its line, so the words fix the whole listing.
  choose! t hentry hback using htext
  have hlisting : listing = ⟨_, _, _⟩ := report_disassemble_render hentry settings' withHeader
  have hwords : listing.output.map (fun x => (x.word, x.line)) = words.zipIdx (if withHeader then 3 else 1) := by
    rw [hlisting, List.map_map]
    exact List.map_id _
  have hsource : ∀ x ∈ listing.output, ∀ n, convertLine ⟨n, x.text⟩ = .ok (some x.word) := by
    intro x hx
    rw [hlisting] at hx
    obtain ⟨p, hp, rfl⟩ := List.mem_map.mp hx
    exact hback p.1 (List.fst_mem_of_mem_zipIdx hp)
  refine ⟨by rw [hlisting], hwords, ?_⟩
  have hmap : listing.output.map (·.word) = words := by
    have h := congrArg (List.map Prod.fst) hwords
    rw [List.map_map, List.zipIdx_map_fst] at h
    exact h
  have hlength : listing.output.length = words.length := (List.length_map _).symm.trans (congrArg List.length hmap)
  rw [report_assemble_source faithful_of_mem_disassemble hsource, hmap, hlength]

/-! ## From an image -/

section

variable {ls : List Listing} (hls : ∀ x ∈ ls, x.Faithful) (settings : Settings)

include hls

theorem assemble_keepGoing_source :
    assemble { settings with keepGoing := true } (Listing.source ls) =
      ⟨ls.length, (ls.zipIdx 1).map fun p => ⟨⟨p.2, p.1.text⟩, convertLine ⟨p.2, p.1.text⟩⟩⟩ := by
  simp only [assemble, Pass.run, if_true, sourceItems_source (oneLine_of_faithful hls), List.map_map, List.length_map,
    List.length_zipIdx]
  rfl

/-- The report on the source that listings spell: the canonical forms, and a failure for each refused word. -/
theorem report_assemble_keepGoing_source :
    (assemble { settings with keepGoing := true } (Listing.source ls)).report.output =
        (ls.filter fun x => ¬ x.word.Refused).map (·.word.canonical) ∧
      (assemble { settings with keepGoing := true } (Listing.source ls)).report.failures.map
          (fun f => (f.line, f.fault.kind)) =
        ((ls.zipIdx 1).filter fun p => p.1.word.Refused).map fun p => (p.2, .malformedOperands) := by
  rw [← map_filter_zipIdx (fun x : Listing => x.word.canonical) (fun x => decide ¬ x.word.Refused) ls 1, assemble,
    sourceItems_source (oneLine_of_faithful hls)]
  refine Pass.report_run_of_refused (fun p hp hr => ?_) (fun p hp hr => ?_)
  · obtain ⟨i, hi, ht⟩ := hls p.1 (List.fst_mem_of_mem_zipIdx hp)
    rw [ht]
    exact ((convertLine_listed hi p.2).2 hr).1
  · obtain ⟨i, hi, ht⟩ := hls p.1 (List.fst_mem_of_mem_zipIdx hp)
    rw [ht]
    exact (convertLine_listed hi p.2).1 hr

end

/-- The listing of an image has one line for each word that was listed. The line of a refused word fails for its
operands; every other line gives the canonical form of its word, which stands for the same instruction. -/
theorem disassemble_assemble_disassemble (image : String) (settings settings' : Settings) :
    let listings := (disassemble settings image).report.output
    let pass := assemble { settings' with keepGoing := true } (Listing.source listings)
    pass.report.lines = listings.length ∧ pass.steps.length = listings.length ∧
      (∀ (k : Nat) (x : Listing), listings[k]? = some x →
        ∃ i step, Instruction.ofWord x.word = .ok i ∧ x.text = i.text ∧
          pass.steps[k]? = some step ∧ step.item = ⟨k + 1, x.text⟩ ∧
          (x.word.Refused → ∃ f, step.result = .error f ∧ f.kind = .malformedOperands) ∧
          (¬ x.word.Refused →
            step.result = .ok (some x.word.canonical) ∧ Instruction.ofWord x.word.canonical = .ok i)) ∧
      pass.report.output = (listings.filter fun x => ¬ x.word.Refused).map (·.word.canonical) ∧
      pass.report.failures.map (fun f => (f.line, f.fault.kind)) =
        ((listings.zipIdx 1).filter fun p => p.1.word.Refused).map fun p => (p.2, .malformedOperands) := by
  intro listings pass
  have hls : ∀ x ∈ listings, x.Faithful := faithful_of_mem_disassemble
  have hpass : pass = ⟨_, _⟩ := assemble_keepGoing_source hls settings'
  refine ⟨by rw [hpass]; rfl, by simp [hpass], fun k x hx => ?_, report_assemble_keepGoing_source hls settings'⟩
  obtain ⟨i, hi, ht⟩ := hls x (List.mem_of_getElem? hx)
  have hline := convertLine_listed hi (k + 1)
  rw [← ht] at hline
  refine ⟨i, ⟨⟨k + 1, x.text⟩, convertLine ⟨k + 1, x.text⟩⟩, hi, ht, ?_, rfl, ?_⟩
  · simp [hpass, hx, Nat.add_comm]
  · dsimp only
    exact hline

end HexAsm
