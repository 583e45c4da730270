import ProofWalk.Text.Lines

/-!
# Files

The program reads and writes whole text files and tells how long it took. Operations on files are
stated over any monad that offers this, so that they run on a real directory as well as on a store of texts.

## Main definitions

* `Files` — reading and writing a file by its path
* `Clock` — telling the time
* `Store` — a directory held in memory
* `fileName`, `fileStem`, `fileExtension`, `withExtension` — the parts of a path
-/

namespace ProofWalk

/-- Reading and writing whole files. A path that cannot be read or written gives `none` or
`false`. -/
class Files (m : Type → Type) where
  read? : String → m (Option String)
  write : String → String → m Bool

/-- The time, in milliseconds. -/
class Clock (m : Type → Type) where
  milliseconds : m Nat

/-- A directory held in memory: its files by name. It has no directories within it, so a path through
one leads nowhere. -/
structure Store where
  files : List (String × String)
deriving Repr

namespace Store

/-- The empty directory. -/
def empty : Store := { files := [] }

/-- The directory with a file written. -/
def put (s : Store) (name content : String) : Store :=
  { files := (name, content) :: s.files.filter fun f => f.1 != name }

/-- The directory with some files. -/
def ofList (files : List (String × String)) : Store :=
  files.foldl (fun s (name, content) => s.put name content) empty

/-- The name of the file that a path leads to: a name, or one behind points that stand for the
directory itself. -/
def fileOf? (path : String) : Option String :=
  match (Text.splitAt '/' path.toList).reverse with
  | [] => none
  | name :: folders =>
    if name.isEmpty || name = ['.'] || name = ['.', '.'] then none
    else if folders.all (fun folder => folder.isEmpty || folder = ['.']) &&
        folders.getLast?.all (· = ['.']) then some (String.ofList name)
    else none

/-- The content of the file that a path leads to. -/
def get? (s : Store) (path : String) : Option String :=
  (fileOf? path).bind fun name => s.files.lookup name

end Store

instance {m : Type → Type} [Monad m] : Files (StateT Store m) where
  read? path := fun s => pure (s.get? path, s)
  write path content := fun s =>
    pure (match Store.fileOf? path with
      | some name => (true, s.put name content)
      | none => (false, s))

/-- No time goes by over a directory held in memory. -/
instance {m : Type → Type} [Monad m] : Clock (StateT Store m) where
  milliseconds := pure 0

instance {m : Type → Type} {ε : Type} [Monad m] [Files m] : Files (ExceptT ε m) where
  read? path := (Files.read? path : m _)
  write path content := (Files.write path content : m _)

/-- The last component of a path. -/
def fileName (path : String) : List Char :=
  ((path.toList.reverse.dropWhile (· == '/')).takeWhile (· != '/')).reverse

/-- A file name cut at its last point; a point at its start cuts nothing. -/
def cutExtension (name : List Char) : List Char × Option (List Char) :=
  let reversed := name.reverse
  let extension := (reversed.takeWhile (· != '.')).reverse
  match (reversed.dropWhile (· != '.')) with
  | '.' :: stem => if stem.isEmpty || name = ['.', '.'] then (name, none) else (stem.reverse, some extension)
  | _ => (name, none)

/-- The name of a file without its extension. -/
def fileStem (path : String) : String := String.ofList (cutExtension (fileName path)).1

/-- The extension of a file, empty if it has none. -/
def fileExtension (path : String) : String :=
  String.ofList ((cutExtension (fileName path)).2.getD [])

/-- A path with another extension for its file, or with one if it had none. -/
def withExtension (path extension : String) : String :=
  let name := fileName path
  if name.isEmpty || name = ['.'] || name = ['.', '.'] then path
  else
    let folder := ((path.toList.reverse.dropWhile (· == '/')).dropWhile (· != '/')).reverse
    String.ofList (folder ++ (cutExtension name).1) ++ "." ++ extension

end ProofWalk
