/-!
# Files

A program reaches files by name through `Files`. A `FileTree` is such a store by itself: the working directory with
the files in it. Its directories are those that hold a file, and no link leads out of it.
-/

namespace HexAsm

/-- Reading and writing of texts by file name. Reading fails if there is no such file or it is not UTF-8; writing
reports whether it succeeded. -/
structure Files (m : Type → Type) where
  read : String → m (Option String)
  write : String → String → m Bool

/-- The names on the way from the working directory to a file or directory. -/
abbrev Path := List String

/-- The names that slashes separate in a text. -/
def Path.ofText (s : String) : Path := (s.toList.splitOnP (· == '/')).map String.ofList

/-- The names with slashes between them. -/
def Path.text (p : Path) : String := String.intercalate "/" p

/-- The files below the working directory. -/
structure FileTree where
  files : List (Path × ByteArray)

namespace FileTree

/-! ## Places -/

/-- The path leads to a directory. -/
def isDirectory (t : FileTree) (p : Path) : Bool :=
  p.isEmpty || t.files.any fun f => p.isPrefixOf f.1 && p != f.1

/-- The most bytes in the name of a file or directory. -/
def nameLimit : Nat := 255

/-- The most bytes in a file name with all its slashes. -/
def textLimit : Nat := 4095

/-- The place that names lead to from a path, if all before the last are directories and no name is too long. -/
def walk (t : FileTree) (p : Path) : List String → Option Path
  | [] => some p
  | n :: ns =>
    if !t.isDirectory p then none
    else if n = "" ∨ n = "." then t.walk p ns
    else if n = ".." then if p = [] then none else t.walk p.dropLast ns
    else if nameLimit < n.utf8ByteSize then none
    else t.walk (p ++ [n]) ns

/-- The place that a file name leads to. A name that starts at the root of the system leads out of the tree. -/
def locate (t : FileTree) (name : String) : Option Path :=
  if textLimit < name.utf8ByteSize then none
  else
    match Path.ofText name with
    | "" :: _ => none
    | names => t.walk [] names

/-! ## Contents -/

/-- The content of a file. -/
def get? (t : FileTree) (p : Path) : Option ByteArray := t.files.lookup p

/-- The tree with a file replaced, or added at its end. -/
def insert (t : FileTree) (p : Path) (content : ByteArray) : FileTree :=
  if (t.get? p).isSome then
    ⟨t.files.map fun f => if f.1 = p then (p, content) else f⟩
  else ⟨t.files ++ [(p, content)]⟩

/-- The text of a named file. -/
def read (t : FileTree) (name : String) : Option String :=
  ((t.locate name).bind t.get?).bind String.fromUTF8?

/-- The tree after a text is written to a named file. -/
def write? (t : FileTree) (name : String) (text : String) : Option FileTree :=
  (t.locate name).bind fun p =>
    if t.isDirectory p then none else some (t.insert p text.toUTF8)

/-- The files of a tree that an earlier one does not have with the same content. -/
def changes (old new : FileTree) : List (Path × ByteArray) :=
  new.files.filter fun f => old.get? f.1 != some f.2

/-- A tree as a store of files. -/
def store : Files (StateM FileTree) where
  read name := do return (← get).read name
  write name text := do
    match (← get).write? name text with
    | some t => set t; return true
    | none => return false

end FileTree

end HexAsm
