import HexAsm.Assembly.Statement
import HexAsm.Program.Image
import HexAsm.Settings.Basic

/-!
# Passes

A pass converts the items of a text one by one: the lines of a source, or the entries of an image. It keeps every
step, and the report sorts the steps into what was produced and what failed.
-/

namespace HexAsm

open HexAsm.Text

/-! ## Items and steps -/

/-- A part of the input, with the number of its line. -/
structure Item where
  line : Nat
  text : String
  deriving DecidableEq

/-- An item and what became of it: a product, nothing, or a fault. -/
structure Step (α : Type) where
  item : Item
  result : Except Fault (Option α)

namespace Step

variable {α : Type}

/-- The item could not be converted. -/
def failed (s : Step α) : Bool :=
  match s.result with
  | .error _ => true
  | .ok _ => false

/-- What the step produced. -/
def product? (s : Step α) : Option α :=
  match s.result with
  | .error _ => none
  | .ok a => a

end Step

/-! ## Reports -/

/-- An item that could not be converted, without the blanks around it. -/
structure Failure where
  line : Nat
  text : String
  fault : Fault
  deriving DecidableEq

/-- The outcome of a pass: the number of items, the products, and the failures, in the order of the input. -/
structure Report (α : Type) where
  lines : Nat
  output : List α
  failures : List Failure
  deriving DecidableEq

/-- Every item was converted. -/
def Report.ok {α : Type} (r : Report α) : Bool := r.failures.isEmpty

/-- The failure of a step. -/
def Step.failure? {α : Type} (s : Step α) : Option Failure :=
  match s.result with
  | .error f => some ⟨s.item.line, String.ofList (trim s.item.text.toList), f⟩
  | .ok _ => none

/-! ## Passes -/

/-- The list up to and including its first element that satisfies `p`. -/
def upToFirst {α : Type} (p : α → Bool) : List α → List α
  | [] => []
  | a :: as => if p a then [a] else a :: upToFirst p as

/-- The number of items of a pass, and the steps that it took. -/
structure Pass (α : Type) where
  total : Nat
  steps : List (Step α)

namespace Pass

variable {α : Type}

/-- Converts the items in order. A pass that does not keep going ends with its first failure. -/
def run (convert : Item → Except Fault (Option α)) (keepGoing : Bool) (items : List Item) : Pass α :=
  let steps := items.map fun item => ⟨item, convert item⟩
  ⟨items.length, if keepGoing then steps else upToFirst Step.failed steps⟩

/-- The report on a pass. -/
def report (p : Pass α) : Report α :=
  ⟨p.total, p.steps.filterMap Step.product?, p.steps.filterMap Step.failure?⟩

end Pass

/-! ## Assembling -/

/-- The lines of a source; the first line is line 1. -/
def sourceItems (source : String) : List Item :=
  ((lines source.toList).zipIdx 1).map fun (line, number) => ⟨number, String.ofList line⟩

/-- The word of a source line, after tidying. -/
def convertLine (item : Item) : Except Fault (Option Word) :=
  (Word.ofLine (String.ofList (Line.tidy item.text.toList))).mapError .line

/-- The pass that turns a source into words. -/
def assemble (settings : Settings) (source : String) : Pass Word :=
  Pass.run convertLine settings.keepGoing (sourceItems source)

/-! ## Disassembling -/

/-- A word of an image, the line it stands on, and its text as assembly. -/
structure Listing where
  line : Nat
  word : Word
  text : String
  deriving DecidableEq

/-- The entries of an image. -/
def imageItems (image : String) : List Item :=
  (Image.entries image).map fun (line, entry) => ⟨line, entry⟩

/-- The listing of an entry. -/
def convertEntry (item : Item) : Except Fault (Option Listing) :=
  Except.mapError .word do
    let word ← Word.ofText item.text
    let instruction ← Instruction.ofWord word
    return some ⟨item.line, word, instruction.text⟩

/-- The pass that turns an image into listings. -/
def disassemble (settings : Settings) (image : String) : Pass Listing :=
  Pass.run convertEntry settings.keepGoing (imageItems image)

/-- The source that listings spell. -/
def Listing.source (ls : List Listing) : String := unlines (ls.map (·.text))

end HexAsm
