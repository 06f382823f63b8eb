import HexAsm.Proofs.Lemmas.JsonValue
import HexAsm.Proofs.Lemmas.Run

/-!
# Reports in JSON

A report in JSON is one object, and a reader that keeps all its members in order has everything the report is about. The
name `output` stands for two of them: a reader that keeps one value for a name has either the file that was written or
the items, and never both.
-/

namespace HexAsm

open HexAsm.Json (Value)

/-! ## Readers that keep one value for a name -/

/-- A choice among the values that an object has for one name. -/
structure Keep where
  pick : List Value → Option Value
  mem : ∀ vs v, pick vs = some v → v ∈ vs
  isSome : ∀ vs, vs ≠ [] → (pick vs).isSome = true

namespace Keep

/-- The first value wins. -/
def first : Keep where
  pick := List.head?
  mem _ _ := List.mem_of_head?
  isSome _ h := by simpa using h

/-- The last value wins. -/
def last : Keep where
  pick := List.getLast?
  mem _ _ := List.mem_of_getLast?
  isSome _ h := by simpa using h

theorem exists_pick (keep : Keep) {vs : List Value} (h : vs ≠ []) : ∃ v ∈ vs, keep.pick vs = some v := by
  obtain ⟨v, hv⟩ := Option.isSome_iff_exists.mp (keep.isSome vs h)
  exact ⟨v, keep.mem vs v hv, hv⟩

theorem pick_singleton (keep : Keep) (v : Value) : keep.pick [v] = some v := by
  obtain ⟨w, hw, hpick⟩ := keep.exists_pick (List.cons_ne_nil v [])
  rw [hpick, List.mem_singleton.mp hw]

theorem pick_pair (keep : Keep) (v w : Value) : keep.pick [v, w] = some v ∨ keep.pick [v, w] = some w := by
  obtain ⟨u, hu, hpick⟩ := keep.exists_pick (List.cons_ne_nil v [w])
  rcases List.mem_cons.mp hu with rfl | hu
  · exact .inl hpick
  · rw [List.mem_singleton.mp hu] at hpick
    exact .inr hpick

end Keep

/-- The value of an object that the reader has for a name. -/
def Keep.value? (keep : Keep) (name : String) : Value → Option Value
  | .object ms => keep.pick ((ms.filter fun m => m.1 == name).map Prod.snd)
  | _ => none

/-! ## What a report is about -/

/-- A failure as it is told. -/
structure ToldFailure where
  line : Nat
  text : String
  kind : String
  message : String

def Failure.told (f : Failure) : ToldFailure :=
  { line := f.line
    text := f.text
    kind := f.fault.kind.name
    message := f.fault.message }

/-- What a report tells, with the file if one was written. -/
structure Told (α : Type) where
  input : String
  written : Option String
  lines : Nat
  output : List α
  failures : List ToldFailure

def Told.ofReport {α : Type} (r : Request) (report : Report α) : Told α :=
  { input := r.input
    written := if report.ok then some r.output else none
    lines := report.lines
    output := report.output
    failures := report.failures.map Failure.told }

/-- The file that was written, as a report has it. -/
def Request.writtenJson (r : Request) (result : Result) : Value := if result.ok then .string r.output else .null

/-- The members of a report in order. -/
def Request.reportMembers (r : Request) (result : Result) : List (String × Value) :=
  [("input", .string r.input), ("output", r.writtenJson result), ("lines", .number result.lines),
    ("output", .array result.items), ("failures", .array (result.failures.map Failure.toJson))]

theorem reportJson_eq (r : Request) (result : Result) : r.reportJson result = .object (r.reportMembers result) := rfl

/-! ## A reader that keeps every member -/

def writtenOfJson? : Value → Option (Option String)
  | .null => some none
  | .string s => some (some s)
  | _ => none

def Word.ofJson? : Value → Option Word
  | .string s => (Word.ofText s).toOption
  | _ => none

def Listing.ofJson? : Value → Option Listing
  | .object [("line", .number n), ("word", w), ("text", .string t)] => (Word.ofJson? w).map (⟨n, ·, t⟩)
  | _ => none

def ToldFailure.ofJson? : Value → Option ToldFailure
  | .object [("line", .number n), ("text", .string t), ("kind", .string k), ("message", .string m)] => some ⟨n, t, k, m⟩
  | _ => none

/-- What the members of a report tell, all of them in order. -/
def Told.ofJson? {α : Type} (item? : Value → Option α) : Value → Option (Told α)
  | .object [("input", .string input), ("output", path), ("lines", .number lines), ("output", .array items),
      ("failures", .array failures)] => do
    some ⟨input, ← writtenOfJson? path, lines, ← items.mapM item?, ← failures.mapM ToldFailure.ofJson?⟩
  | _ => none

/-! ## What the values tell -/

theorem Word.ofJson?_toJson (w : Word) : Word.ofJson? w.toJson = some w := by
  rw [Word.toJson, Word.ofJson?, Word.ofText_text]
  rfl

theorem Word.toJson_injective : Function.Injective Word.toJson := by
  intro w w' h
  have hword := congrArg Word.ofJson? h
  rw [Word.ofJson?_toJson, Word.ofJson?_toJson] at hword
  exact Option.some.inj hword

theorem Listing.ofJson?_toJson (l : Listing) : Listing.ofJson? l.toJson = some l := by
  rw [Listing.toJson, Listing.ofJson?, Word.ofJson?_toJson]
  rfl

theorem ToldFailure.ofJson?_toJson (f : Failure) : ToldFailure.ofJson? f.toJson = some f.told := rfl

theorem mapM_map_eq_some {α β γ : Type} {f : α → β} {g : β → Option γ} {k : α → γ} (h : ∀ a, g (f a) = some (k a))
    (as : List α) : (as.map f).mapM g = some (as.map k) := by
  rw [mapM_eq_some, List.forall₂_map_left_iff, List.forall₂_map_right_iff]
  exact List.forall₂_same.mpr fun a _ => h a

theorem ofJson?_reportJson {α : Type} {item : α → Value} {item? : Value → Option α} (hitem : ∀ a, item? (item a) = some a)
    (r : Request) (p : Pass α) (content : List α → String) :
    Told.ofJson? item? (r.reportJson (.ofPass p item content)) = some (.ofReport r p.report) := by
  have hwritten : writtenOfJson? (r.writtenJson (.ofPass p item content)) =
      some (if p.report.ok then some r.output else none) := by
    have hok : (Result.ofPass p item content).ok = p.report.ok := rfl
    rw [Request.writtenJson, hok]
    cases p.report.ok <;> rfl
  have hitems : (Result.ofPass p item content).items.mapM item? = some p.report.output := by
    have hmap := mapM_map_eq_some (k := id) hitem p.report.output
    rwa [List.map_id] at hmap
  have hfailures : ((Result.ofPass p item content).failures.map Failure.toJson).mapM ToldFailure.ofJson? =
      some (p.report.failures.map Failure.told) := mapM_map_eq_some ToldFailure.ofJson?_toJson p.report.failures
  rw [reportJson_eq, Request.reportMembers]
  simp only [Told.ofJson?, hwritten, hitems, hfailures, Option.bind_eq_bind, Option.bind_some]
  rfl

theorem distinct_failure (f : Failure) : f.toJson.Distinct := by
  refine .object (by simp) ?_
  simp [Value.Distinct.number, Value.Distinct.string]

theorem distinct_listing (l : Listing) : l.toJson.Distinct := by
  refine .object (by simp) ?_
  simp [Word.toJson, Value.Distinct.number, Value.Distinct.string]

theorem distinct_items (r : Request) (settings : Settings) (text : String) :
    ∀ v ∈ (r.convert settings text).items, v.Distinct := by
  unfold Request.convert
  cases r.task with
  | assemble =>
      intro v hv
      obtain ⟨w, -, rfl⟩ := List.mem_map.mp hv
      exact .string _
  | disassemble =>
      intro v hv
      obtain ⟨l, -, rfl⟩ := List.mem_map.mp hv
      exact distinct_listing l

/-- Below the report itself, no object has two members of one name. -/
theorem distinct_members (r : Request) (settings : Settings) (text : String) :
    ∀ m ∈ r.reportMembers (r.convert settings text), m.2.Distinct := by
  have hwritten : (r.writtenJson (r.convert settings text)).Distinct := by
    unfold Request.writtenJson
    cases (r.convert settings text).ok
    · exact .null
    · exact .string _
  have hfailures : ∀ v ∈ (r.convert settings text).failures.map Failure.toJson, v.Distinct := by
    intro v hv
    obtain ⟨f, -, rfl⟩ := List.mem_map.mp hv
    exact distinct_failure f
  simp only [Request.reportMembers, List.forall_mem_cons]
  exact ⟨.string _, hwritten, .number _, .array (distinct_items r settings text), .array hfailures, nofun⟩

/-- What a reader that keeps one value for a name has of a report: the file that was written or the items. -/
structure HalfTold (keep : Keep) (r : Request) (result : Result) (v : Value) : Prop where
  input : keep.value? "input" v = some (.string r.input)
  lines : keep.value? "lines" v = some (.number result.lines)
  failures : keep.value? "failures" v = some (.array (result.failures.map Failure.toJson))
  failure : ∀ f ∈ result.failures,
    keep.value? "line" f.toJson = some (.number f.line) ∧ keep.value? "text" f.toJson = some (.string f.text) ∧
      keep.value? "kind" f.toJson = some (.string f.fault.kind.name) ∧
      keep.value? "message" f.toJson = some (.string f.fault.message)
  output : keep.value? "output" v = some (r.writtenJson result) ∨ keep.value? "output" v = some (.array result.items)
  output_ne : r.writtenJson result ≠ .array result.items

theorem halfTold_reportJson (keep : Keep) (r : Request) (result : Result) :
    HalfTold keep r result (r.reportJson result) where
  input := keep.pick_singleton _
  lines := keep.pick_singleton _
  failures := keep.pick_singleton _
  failure _ _ := ⟨keep.pick_singleton _, keep.pick_singleton _, keep.pick_singleton _, keep.pick_singleton _⟩
  output := keep.pick_pair _ _
  output_ne := by
    unfold Request.writtenJson
    cases result.ok <;> simp

/-! ## Reports that look the same -/

/-- A report on a run that wrote a file. -/
def reportObject (input : String) (lines : Nat) (out : String) (items : List Value) : Value :=
  .object [("input", .string input), ("output", .string out), ("lines", .number lines), ("output", .array items),
    ("failures", .array [])]

example (input : String) (lines : Nat) (out : String) (items : List Value) :
    Keep.first.value? "output" (reportObject input lines out items) = some (.string out) ∧
      Keep.last.value? "output" (reportObject input lines out items) = some (.array items) := ⟨rfl, rfl⟩

/-- Reports with the same value for `output` have the same value for every name. -/
theorem value?_reportObject_eq {keep : Keep} {input : String} {lines : Nat} {out out' : String}
    {items items' : List Value}
    (h : keep.pick [.string out, .array items] = keep.pick [.string out', .array items']) (name : String) :
    keep.value? name (reportObject input lines out items) = keep.value? name (reportObject input lines out' items') := by
  by_cases hname : name = "output"
  · subst hname
    exact h
  · have hne : ("output" == name) = false := by simpa using fun h => hname h.symm
    simp only [Keep.value?, reportObject, List.filter, hne]

/-- Two files and three lists of items make six reports. A reader that keeps one value for a name cannot tell them all
apart: it has five values for `output` at the most. -/
theorem exists_same_values (keep : Keep) (input : String) (lines : Nat) {p q : String} (hpq : p ≠ q)
    {a b c : List Value} (hab : a ≠ b) (hac : a ≠ c) (hbc : b ≠ c) :
    ∃ out ∈ [p, q], ∃ out' ∈ [p, q], ∃ items ∈ [a, b, c], ∃ items' ∈ [a, b, c], (out ≠ out' ∨ items ≠ items') ∧
      ∀ name, keep.value? name (reportObject input lines out items) =
        keep.value? name (reportObject input lines out' items') := by
  by_cases hfiles : ∀ items ∈ [a, b, c], ∃ out ∈ [p, q], keep.pick [.string out, .array items] = some (.string out)
  · -- each of the three lists gives way to one of the two files, so two of them to the same
    obtain ⟨x, hx, hax⟩ := hfiles a (by simp)
    obtain ⟨y, hy, hby⟩ := hfiles b (by simp)
    obtain ⟨z, hz, hcz⟩ := hfiles c (by simp)
    have htwo : x = y ∨ x = z ∨ y = z := by
      simp only [List.mem_cons, List.not_mem_nil, or_false] at hx hy hz
      grind
    rcases htwo with rfl | rfl | rfl
    · exact ⟨x, hx, x, hx, a, by simp, b, by simp, .inr hab, value?_reportObject_eq (hax.trans hby.symm)⟩
    · exact ⟨x, hx, x, hx, a, by simp, c, by simp, .inr hac, value?_reportObject_eq (hax.trans hcz.symm)⟩
    · exact ⟨y, hy, y, hy, b, by simp, c, by simp, .inr hbc, value?_reportObject_eq (hby.trans hcz.symm)⟩
  · push Not at hfiles
    obtain ⟨items, hitems, hnot⟩ := hfiles
    have hp := (keep.pick_pair (.string p) (.array items)).resolve_left (hnot p (by simp))
    have hq := (keep.pick_pair (.string q) (.array items)).resolve_left (hnot q (by simp))
    exact ⟨p, by simp, q, by simp, items, hitems, items, hitems, .inl hpq, value?_reportObject_eq (hp.trans hq.symm)⟩

/-! ## Main result -/

variable {σ π : Type} {files : Files (StateM σ)} {place : σ → String → Option π} {content : σ → π → Option ByteArray}
  {r : Request} {s : σ}

theorem stdout_run_json (hfiles : files.Lawful place content) (hjson : r.format = .json) {given : Settings}
    {text : String} (hgiven : r.given? files s = some given) (htext : files.text? r.input s = some text)
    {result : Result} (hresult : r.convert (r.override given) text = result) :
    ((r.run files).run s).1.stdout =
      if result.ok = true ∧ files.accepts r.output result.content s = false then ""
      else (r.reportJson result).text ++ "\n" := by
  rw [Request.outcome_run hfiles hgiven htext, hresult, Request.ending, apply_ite Outcome.stdout, Request.conclude, hjson]
  rfl

/-- A run that has its settings and its input prints one object and a line end, unless its output could not be written.
Only the name `output` comes twice. A reader that keeps every member has all the report is about, and one that keeps one
value for a name has all but the file that was written or the items. -/
theorem runCommandLine_json_report (hfiles : files.Lawful place content) {args : List String}
    (hargs : Invocation.ofArguments args = some (.run r)) (hjson : r.format = .json) {given : Settings} {text : String}
    (hgiven : r.given? files s = some given) (htext : files.text? r.input s = some text) :
    let settings := r.override given
    let result := r.convert settings text
    let refused := result.ok = true ∧ files.accepts r.output result.content s = false
    let stdout := ((runCommandLine files args).run s).1.stdout
    (refused → stdout = "") ∧
    (¬ refused → ∃ ms, stdout = (Value.object ms).text ++ "\n" ∧ Value.ofText? stdout = some (.object ms) ∧
      ms.map Prod.fst = ["input", "output", "lines", "output", "failures"] ∧ (∀ m ∈ ms, m.2.Distinct) ∧
      (r.task = .assemble →
        Told.ofJson? Word.ofJson? (.object ms) = some (.ofReport r (assemble settings text).report)) ∧
      (r.task = .disassemble →
        Told.ofJson? Listing.ofJson? (.object ms) = some (.ofReport r (disassemble settings text).report)) ∧
      ∀ keep, HalfTold keep r result (.object ms)) := by
  intro settings result refused stdout
  have hstdout : stdout = if refused then "" else (r.reportJson result).text ++ "\n" := by
    rw [← stdout_run_json hfiles hjson hgiven htext rfl, ← runCommandLine_of_arguments hargs]
  refine ⟨fun h => by rw [hstdout, if_pos h], fun h => ?_⟩
  rw [if_neg h] at hstdout
  have hread : Value.ofText? stdout = some (.object (r.reportMembers result)) := by
    rw [hstdout, Json.ofText?_text, reportJson_eq]
  refine ⟨r.reportMembers result, hstdout, hread, rfl, distinct_members r settings text, fun htask => ?_, fun htask => ?_,
    fun keep => halfTold_reportJson keep r result⟩
  · have hresult : result = .ofPass (assemble settings text) Word.toJson fun ws => Image.render ws settings.header := by
      simp only [result, Request.convert, htask]
    have htold := ofJson?_reportJson Word.ofJson?_toJson r (assemble settings text)
      fun ws => Image.render ws settings.header
    rwa [← hresult] at htold
  · have hresult : result = .ofPass (disassemble settings text) Listing.toJson Listing.source := by
      simp only [result, Request.convert, htask]
    have htold := ofJson?_reportJson Listing.ofJson?_toJson r (disassemble settings text) Listing.source
    rwa [← hresult] at htold

/-- A line of quotation marks and controls in a file of such a name is told as it stands. -/
theorem runCommandLine_json_report_quoted :
    let name := "\"\u00e9\\"
    let source := "RES\n \"\\\x01\n"
    let tree : FileTree := ⟨[([name], source.toUTF8)]⟩
    let stdout := ((runCommandLine FileTree.store ["assemble", "-i", name, "--format", "json"]).run tree).1.stdout
    (Value.ofText? stdout).bind (Told.ofJson? Word.ofJson?) =
      some ⟨name, none, 2, [⟨0xB0000000⟩],
        [⟨2, "\"\\\x01", "UnknownMnemonic", "unknown mnemonic `\"\\\x01`"⟩]⟩ := by
  intro name source tree stdout
  let request : Request := ⟨.assemble, none, .quiet, name, "output.bin", .json, false, none, false⟩
  have hargs : Invocation.ofArguments ["assemble", "-i", name, "--format", "json"] = some (.run request) := by decide
  have htext : FileTree.store.text? name tree = some source := by decide
  have hreport : (assemble {} source).report = ⟨2, [⟨0xB0000000⟩],
      [⟨2, "\"\\\x01", .line (.unknownMnemonic "\"\\\x01")⟩]⟩ := by decide
  have hgiven : request.given? FileTree.store tree = some {} := rfl
  have hfailed : (request.convert (request.override {}) source).ok = false := by decide
  obtain ⟨-, hprinted⟩ := runCommandLine_json_report FileTree.lawful_store hargs rfl hgiven htext
  obtain ⟨ms, -, hread, -, -, hassemble, -, -⟩ := hprinted fun h => by rw [hfailed] at h; cases h.1
  rw [hread, Option.bind_some, hassemble rfl, show request.override {} = {} from rfl, hreport]
  rfl

theorem ofJson?_reportObject (input : String) (lines : Nat) (out : String) (w : Word) :
    Told.ofJson? Word.ofJson? (reportObject input lines out [w.toJson]) = some ⟨input, some out, lines, [w], []⟩ := by
  simp [reportObject, Told.ofJson?, writtenOfJson?, Word.ofJson?_toJson]

theorem ofText?_stdout_word (hfiles : files.Lawful place content) {args : List String}
    (hargs : Invocation.ofArguments args = some (.run r)) (htask : r.task = .assemble) (hjson : r.format = .json)
    {given : Settings} {text : String} (hgiven : r.given? files s = some given)
    (htext : files.text? r.input s = some text) {n : Nat} {w : Word}
    (hreport : (assemble (r.override given) text).report = ⟨n, [w], []⟩)
    (haccepts : files.accepts r.output (Image.render [w] (r.override given).header) s = true) :
    Value.ofText? ((runCommandLine files args).run s).1.stdout = some (reportObject r.input n r.output [w.toJson]) := by
  have hresult : r.convert (r.override given) text =
      .ofPass (assemble (r.override given) text) Word.toJson fun ws => Image.render ws (r.override given).header := by
    rw [Request.convert, htask]
  have hstdout := stdout_run_json hfiles hjson hgiven htext hresult
  simp only [Result.ofPass, hreport, haccepts, Bool.true_eq_false, and_false, if_false] at hstdout
  rw [runCommandLine_of_arguments hargs, hstdout, Json.ofText?_text]
  rfl

/-- The name `output` comes twice, and so no reader that keeps one value for a name knows both what was written and
where: it cannot tell apart two of six runs that differ. -/
theorem runCommandLine_json_output_twice :
    let stdout (source out : String) :=
      ((runCommandLine FileTree.store ["assemble", "--format", "json", "-o", out]).run
        ⟨[(["input.txt"], source.toUTF8)]⟩).1.stdout
    (∃ ms, Value.ofText? (stdout "RES\n" "a") = some (.object ms) ∧ ¬ (ms.map Prod.fst).Nodup) ∧
    ∀ keep : Keep, ∃ source out source' out',
      (Value.ofText? (stdout source out)).bind (Told.ofJson? Word.ofJson?) ≠
        (Value.ofText? (stdout source' out')).bind (Told.ofJson? Word.ofJson?) ∧
      ∀ name, (Value.ofText? (stdout source out)).bind (keep.value? name) =
        (Value.ofText? (stdout source' out')).bind (keep.value? name) := by
  intro stdout
  let programs : List (String × Word) := [("RES\n", ⟨0xB0000000⟩), ("INP 1\n", ⟨0x91000000⟩), ("INP 2\n", ⟨0x92000000⟩)]
  let request (out : String) : Request := ⟨.assemble, none, .quiet, "input.txt", out, .json, false, none, false⟩
  let tree (source : String) : FileTree := ⟨[(["input.txt"], source.toUTF8)]⟩
  have hargs : ∀ out ∈ ["a", "b"],
      Invocation.ofArguments ["assemble", "--format", "json", "-o", out] = some (.run (request out)) := by decide
  have htext : ∀ p ∈ programs, FileTree.store.text? "input.txt" (tree p.1) = some p.1 := by decide
  have hreport : ∀ p ∈ programs, (assemble {} p.1).report = ⟨1, [p.2], []⟩ := by decide
  have haccepts : ∀ out ∈ ["a", "b"], ∀ p ∈ programs,
      FileTree.store.accepts out (Image.render [p.2] true) (tree p.1) = true := by decide
  have hread : ∀ out ∈ ["a", "b"], ∀ p ∈ programs,
      Value.ofText? (stdout p.1 out) = some (reportObject "input.txt" 1 out [p.2.toJson]) := by
    intro out hout p hp
    have hgiven : (request out).given? FileTree.store (tree p.1) = some {} := rfl
    exact ofText?_stdout_word FileTree.lawful_store (hargs out hout) rfl rfl hgiven (htext p hp) (hreport p hp)
      (haccepts out hout p hp)
  refine ⟨⟨_, hread "a" (by simp) ("RES\n", ⟨0xB0000000⟩) (by simp [programs]), by decide⟩, fun keep => ?_⟩
  have hne : ∀ w w' : Word, w ≠ w' → [w.toJson] ≠ [w'.toJson] := by
    intro w w' h hjson
    exact h (Word.toJson_injective (List.cons.inj hjson).1)
  obtain ⟨out, hout, out', hout', items, hitems, items', hitems', hdiffer, hsame⟩ :=
    exists_same_values keep "input.txt" 1 (p := "a") (q := "b") (by decide) (hne ⟨0xB0000000⟩ ⟨0x91000000⟩ (by decide))
      (hne _ ⟨0x92000000⟩ (by decide)) (hne _ _ (by decide))
  obtain ⟨p, hp, rfl⟩ := List.mem_map.mp (show items ∈ programs.map fun p => [p.2.toJson] from hitems)
  obtain ⟨p', hp', rfl⟩ := List.mem_map.mp (show items' ∈ programs.map fun p => [p.2.toJson] from hitems')
  refine ⟨p.1, out, p'.1, out', ?_, fun name => ?_⟩
  · rw [hread out hout p hp, hread out' hout' p' hp', Option.bind_some, Option.bind_some, ofJson?_reportObject,
      ofJson?_reportObject]
    intro h
    simp only [Option.some.injEq, Told.mk.injEq, List.cons.injEq] at h
    rcases hdiffer with hdiffer | hdiffer
    · exact hdiffer h.2.1
    · exact hdiffer (by rw [h.2.2.2.1.1])
  · rw [hread out hout p hp, hread out' hout' p' hp']
    exact hsame name

end HexAsm
