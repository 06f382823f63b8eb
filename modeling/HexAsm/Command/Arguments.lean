import HexAsm.Program.Log

/-!
# Arguments

The command line names a task. Some switches stand on either side of the task, the others behind it. Arguments are
read from left to right, and the first that does not fit makes the whole command line unusable.
-/

namespace HexAsm

/-! ## Requests -/

/-- What the program can be asked to do with a file. -/
inductive Task where
  | assemble
  | disassemble
  deriving DecidableEq

namespace Task

/-- The task with the given name. -/
def ofName? (s : String) : Option Task :=
  if s = "assemble" then some .assemble
  else if s = "disassemble" then some .disassemble
  else none

/-- The file that is written if none is named. -/
def defaultOutput : Task → String
  | .assemble => "output.bin"
  | .disassemble => "output.asm"

end Task

/-- The file that is read if none is named. -/
def defaultInput : String := "input.txt"

/-- The form of the diagnostics. -/
inductive Format where
  | text
  | json
  deriving DecidableEq

/-- The format with the given name. -/
def Format.ofName? (s : String) : Option Format :=
  if s = "text" then some .text else if s = "json" then some .json else none

/-- A task with all that its command line says. -/
structure Request where
  task : Task
  settingsFile : Option String
  verbosity : Verbosity
  input : String
  output : String
  format : Format
  failFast : Bool
  jobs : Option UInt64
  noHeader : Bool
  deriving DecidableEq

/-- What a usable command line asks for. -/
inductive Invocation where
  | run (request : Request)
  | version
  | help
  deriving DecidableEq

/-! ## Switches -/

/-- The switches of all scopes. -/
inductive Switch where
  | config
  | verbose
  | debug
  | version
  | help
  | input
  | output
  | format
  | failFast
  | jobs
  | noHeader
  deriving DecidableEq

namespace Switch

/-- The name after two dashes. -/
def longName : Switch → String
  | .config => "config"
  | .verbose => "verbose"
  | .debug => "debug"
  | .version => "version"
  | .help => "help"
  | .input => "input"
  | .output => "output"
  | .format => "format"
  | .failFast => "fail-fast"
  | .jobs => "jobs"
  | .noHeader => "no-header"

/-- The letter after one dash. -/
def letter? : Switch → Option Char
  | .verbose => some 'v'
  | .debug => some 'd'
  | .version => some 'V'
  | .help => some 'h'
  | .input => some 'i'
  | .output => some 'o'
  | .config | .format | .failFast | .jobs | .noHeader => none

/-- The switch needs a value. -/
def takesValue : Switch → Bool
  | .config | .input | .output | .format | .jobs => true
  | .verbose | .debug | .version | .help | .failFast | .noHeader => false

end Switch

/-- Where an argument stands: before the task or after it. -/
inductive Scope where
  | program
  | task (t : Task)
  deriving DecidableEq

/-- The switches that may stand in a scope. -/
def Scope.switches : Scope → List Switch
  | .program => [.config, .verbose, .debug, .version, .help]
  | .task .assemble =>
    [.config, .verbose, .debug, .help, .input, .output, .format, .failFast, .jobs, .noHeader]
  | .task .disassemble =>
    [.config, .verbose, .debug, .help, .input, .output, .format, .failFast, .jobs]

/-! ## Values -/

/-- The number of workers that a text names: digits behind an optional plus sign, below 2 ^ 64. -/
def jobsOfText? (s : String) : Option UInt64 :=
  let digits := if s.toList.head? = some '+' then s.toList.tail else s.toList
  let n := digits.foldl (fun v c => 10 * v + (c.toNat - '0'.toNat)) 0
  if digits ≠ [] ∧ digits.all Char.isDigit ∧ n < UInt64.size then some (UInt64.ofNat n) else none

/-- The switch takes the value. A file must have a name. -/
def Switch.admits (w : Switch) (value : String) : Bool :=
  match w with
  | .config | .input | .output => value != ""
  | .format => (Format.ofName? value).isSome
  | .jobs => (jobsOfText? value).isSome
  | .verbose | .debug | .version | .help | .failFast | .noHeader => true

/-- The switches given in a scope with their values; a switch without a value has the empty text. -/
abbrev Given := List (Switch × String)

/-- Adds a switch that was not given yet and takes the value. -/
def Given.add? (g : Given) (w : Switch) (value : String) : Option Given :=
  if (g.lookup w).isNone && w.admits value then some ((w, value) :: g) else none

/-! ## Single arguments -/

/-- What a part of an argument says. -/
inductive Mention where
  | flag (w : Switch)
  | valued (w : Switch) (value : String)
  /-- The value is the next argument. -/
  | awaiting (w : Switch)
  | unknown

/-- The mention of a long switch: a value stands behind an equals sign. -/
def longMention (scope : Scope) (cs : List Char) : Mention :=
  let name := String.ofList (cs.takeWhile (· != '='))
  match scope.switches.find? (fun w => w.longName == name), cs.dropWhile (· != '=') with
  | none, _ => .unknown
  | some w, [] => if w.takesValue then .awaiting w else .flag w
  | some w, _ :: value => if w.takesValue then .valued w (String.ofList value) else .unknown

/-- The mentions of a cluster of letters. What follows the letter of a switch with a value is the value, apart from
one equals sign. -/
def clusterMentions (scope : Scope) : List Char → List Mention
  | [] => []
  | c :: cs =>
    match scope.switches.find? (fun w => w.letter? == some c) with
    | none => [.unknown]
    | some w =>
      if w.takesValue then
        match cs with
        | [] => [.awaiting w]
        | '=' :: value => [.valued w (String.ofList value)]
        | value => [.valued w (String.ofList value)]
      else .flag w :: clusterMentions scope cs

/-- An argument on its own. -/
inductive Argument where
  /-- Two dashes, after which nothing may follow. -/
  | dashes
  | plain
  | switches (ms : List Mention)

/-- The form of an argument. A single dash is plain. -/
def Argument.ofChars (scope : Scope) : List Char → Argument
  | ['-', '-'] => .dashes
  | '-' :: '-' :: cs => .switches [longMention scope cs]
  | '-' :: c :: cs => .switches (clusterMentions scope (c :: cs))
  | _ => .plain

/-- The argument cannot be the value of the switch before it. -/
def looksLikeSwitch (s : String) : Bool :=
  match s.toList with
  | '-' :: _ :: _ => true
  | _ => false

/-- What becomes of the switches given so far. -/
inductive Progress where
  | refused
  | answered (i : Invocation)
  | ready (g : Given)
  | awaiting (g : Given) (w : Switch)

/-- Takes the mentions of an argument in order. Asking for the version or for help ends the reading. -/
def takeMentions (g : Given) : List Mention → Progress
  | [] => .ready g
  | .unknown :: _ => .refused
  | .awaiting w :: _ => .awaiting g w
  | .flag .version :: _ => .answered .version
  | .flag .help :: _ => .answered .help
  | .flag w :: ms =>
    match g.add? w "" with
    | some g => takeMentions g ms
    | none => .refused
  | .valued w value :: ms =>
    match g.add? w value with
    | some g => takeMentions g ms
    | none => .refused

/-! ## The command line -/

/-- The request of a task with the switches given before and after it. Behind the task, a settings file replaces the
one before it. -/
def Request.ofGiven (t : Task) (before after : Given) : Request :=
  let has (w : Switch) : Bool := (before.lookup w).isSome || (after.lookup w).isSome
  { task := t
    settingsFile := (after.lookup .config).or (before.lookup .config)
    verbosity := if has .debug then .everything else if has .verbose then .summary else .quiet
    input := (after.lookup .input).getD defaultInput
    output := (after.lookup .output).getD t.defaultOutput
    format := ((after.lookup .format).bind Format.ofName?).getD .text
    failFast := has .failFast
    jobs := (after.lookup .jobs).bind jobsOfText?
    noHeader := has .noHeader }

namespace Invocation

/-- What the word `help` asks for. At most one name may follow it, that of a task or `help` itself. -/
def ofHelp : List String → Option Invocation
  | [] => some .help
  | [name] => if name = "help" ∨ (Task.ofName? name).isSome then some .help else none
  | _ => none

/-- What the arguments in a scope ask for, after switches given before the task and in this scope. -/
def read (scope : Scope) (before given : Given) : List String → Option Invocation
  | [] =>
    match scope with
    | .program => none
    | .task t => some (.run (Request.ofGiven t before given))
  | a :: rest =>
    match Argument.ofChars scope a.toList with
    | .dashes =>
      match scope, rest with
      | .task t, [] => some (.run (Request.ofGiven t before given))
      | _, _ => none
    | .plain =>
      match scope, Task.ofName? a with
      | .program, some t => read (.task t) given [] rest
      | .program, none => if a = "help" then ofHelp rest else none
      | .task _, _ => none
    | .switches ms =>
      match takeMentions given ms with
      | .refused => none
      | .answered i => some i
      | .ready g => read scope before g rest
      | .awaiting g w =>
        match rest with
        | [] => none
        | v :: rest =>
          if looksLikeSwitch v then none
          else
            match g.add? w v with
            | some g => read scope before g rest
            | none => none

/-- What a command line asks for; `none` if it is unusable. -/
def ofArguments (args : List String) : Option Invocation := read .program [] [] args

end Invocation

end HexAsm
