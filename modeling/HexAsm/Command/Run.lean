import HexAsm.Command.Arguments
import HexAsm.Command.FileTree
import HexAsm.Json.Value
import HexAsm.Settings.Reader

/-!
# Running a command line

A request reads its settings and its input, converts the input, and writes the output only if every item was
converted. Whatever happens is told on the two output streams and by the exit code.
-/

namespace HexAsm

/-- What a run leaves behind, apart from files. -/
structure Outcome where
  code : UInt32
  stdout : String := ""
  stderr : String := ""

/-! ## Results -/

/-- A pass as the command line shows it. -/
structure Result where
  lines : Nat
  items : List Json.Value
  failures : List Failure
  events : List LogEvent
  /-- The text of the output file. -/
  content : String

namespace Result

/-- The result of a pass, from the layout of an item and the text of the output file. -/
def ofPass {α : Type} (p : Pass α) (item : α → Json.Value) (content : List α → String) : Result :=
  { lines := p.report.lines
    items := p.report.output.map item
    failures := p.report.failures
    events := p.events
    content := content p.report.output }

/-- Every item was converted. -/
def ok (r : Result) : Bool := r.failures.isEmpty

end Result

/-- A word in a report. -/
def Word.toJson (w : Word) : Json.Value := .string w.text

/-- A listing in a report. -/
def Listing.toJson (l : Listing) : Json.Value :=
  .object [("line", .number l.line), ("word", l.word.toJson), ("text", .string l.text)]

/-- A failure in a report. -/
def Failure.toJson (f : Failure) : Json.Value :=
  .object
    [("line", .number f.line), ("text", .string f.text), ("kind", .string f.fault.kind.name),
      ("message", .string f.fault.message)]

/-- The line that tells a failure. -/
def Failure.diagnostic (input : String) (f : Failure) : String :=
  "error: " ++ input ++ ":" ++ toString f.line ++ ": " ++ f.fault.message ++ " (in `" ++ f.text ++ "`)"

namespace Request

/-- The settings of a file with those of the command line on top. -/
def override (r : Request) (s : Settings) : Settings :=
  { keepGoing := s.keepGoing && !r.failFast
    header := s.header && !r.noHeader
    jobs := r.jobs.or s.jobs }

/-- Converts the text of the input. -/
def convert (r : Request) (s : Settings) (text : String) : Result :=
  match r.task with
  | .assemble => .ofPass (assemble s text) Word.toJson fun ws => Image.render ws s.header
  | .disassemble => .ofPass (disassemble s text) Listing.toJson Listing.source

/-! ## Diagnostics -/

/-- The report in JSON. The first `output` is the file that was written, the second the list of items. -/
def reportJson (r : Request) (result : Result) : Json.Value :=
  .object
    [("input", .string r.input), ("output", if result.ok then .string r.output else .null),
      ("lines", .number result.lines), ("output", .array result.items),
      ("failures", .array (result.failures.map Failure.toJson))]

/-- The lines of the text report on the standard output. -/
def reportLines (r : Request) (result : Result) : List String :=
  if result.ok then
    [toString result.lines ++ " line(s) -> " ++ toString result.items.length ++ " item(s) written to " ++
      r.output]
  else []

/-- The lines of the text report on the error output. -/
def failureLines (r : Request) (result : Result) : List String :=
  if result.ok then []
  else
    result.failures.map (Failure.diagnostic r.input) ++
      [toString result.failures.length ++ " line(s) failed; " ++ r.output ++ " not written"]

/-- The outcome after the output was written, or left alone because of failures. -/
def conclude (r : Request) (result : Result) : Outcome :=
  let written := if result.ok then [LogEvent.written r.output] else []
  let log := logLines r.verbosity (result.events ++ written)
  let code := if result.ok then 0 else 1
  match r.format with
  | .text =>
    { code
      stdout := Text.unlines (r.reportLines result)
      stderr := Text.unlines (log ++ r.failureLines result) }
  | .json =>
    { code
      stdout := (r.reportJson result).text ++ "\n"
      stderr := Text.unlines log }

/-- The outcome of a run that cannot go on, after the events so far. -/
def abort (r : Request) (events : List LogEvent) (context : String) : Outcome :=
  { code := 1
    stderr := Text.unlines (logLines r.verbosity events ++ ["Error: " ++ context]) }

/-! ## Runs -/

variable {m : Type → Type} [Monad m]

/-- The settings of a request, or the context of the failure. -/
def loadSettings (files : Files m) (r : Request) : m (Except String Settings) :=
  match r.settingsFile with
  | none => return .ok (r.override {})
  | some name => do
    match ← files.read name with
    | none => return .error ("reading config " ++ name)
    | some text =>
      match Settings.ofText text with
      | .error _ => return .error ("parsing config " ++ name)
      | .ok s => return .ok (r.override s)

/-- Writes the output of a result without failures. -/
def finish (files : Files m) (r : Request) (result : Result) : m Outcome := do
  if result.ok then
    if ← files.write r.output result.content then return r.conclude result
    else return r.abort result.events ("writing " ++ r.output)
  else return r.conclude result

/-- Runs a request: the settings, the input, the conversion, the output. -/
def run (files : Files m) (r : Request) : m Outcome := do
  match ← r.loadSettings files with
  | .error context => return r.abort [] context
  | .ok s =>
    match ← files.read r.input with
    | none => return r.abort [] ("reading " ++ r.input)
    | some text => r.finish files (r.convert s text)

end Request

/-! ## The program -/

/-- The name and the version of the program. -/
def versionText : String := "nibble-asm-cli 0.1.0"

/-- A short description of the command line. -/
def helpText : String :=
  Text.unlines
    ["Nibble machine assembler and disassembler",
      "",
      "Usage: nibble-asm-cli [OPTIONS] <assemble|disassemble> [OPTIONS]",
      "",
      "Options:",
      "      --config <FILE>    JSON file with settings (continue_on_error, header, jobs)",
      "  -v, --verbose          Log a summary of each pass",
      "  -d, --debug            Log every line",
      "  -i, --input <FILE>     Input file [default: input.txt]",
      "  -o, --output <FILE>    Output file [default: output.bin / output.asm]",
      "      --format <FORMAT>  Diagnostics format: text, json [default: text]",
      "      --fail-fast        Stop at the first failing line",
      "      --jobs <N>         Worker threads",
      "      --no-header        Leave out the image header (assemble only)",
      "  -h, --help             Print help",
      "  -V, --version          Print version"]

/-- Runs a command line. An unusable one exits with code 2 and touches no file. -/
def runCommandLine {m : Type → Type} [Monad m] (files : Files m) (args : List String) : m Outcome :=
  match Invocation.ofArguments args with
  | none =>
    return { code := 2, stderr := "error: unusable arguments\n\nFor more information, try '--help'.\n" }
  | some .version => return { code := 0, stdout := versionText ++ "\n" }
  | some .help => return { code := 0, stdout := helpText }
  | some (.run r) => r.run files

end HexAsm
