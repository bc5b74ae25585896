/-!
# Files

A tree of files as the command line sees it, and the path arithmetic that it needs. Paths are texts
with slashes; where they lead is found step by step from the working directory.
-/

namespace Stencil

/-- Why a file cannot be read. -/
inductive DiskError
  | notFound | notFolder | isFolder | notText
  deriving DecidableEq

def DiskError.message : DiskError → String
  | notFound => "No such file or directory (os error 2)"
  | notFolder => "Not a directory (os error 20)"
  | isFolder => "Is a directory (os error 21)"
  | notText => "stream did not contain valid UTF-8"

/-- Files by the names on the way from the working directory, and folders besides those that the
files are in. -/
structure Disk where
  files : List (List String × ByteArray)
  folders : List (List String) := []

/-! ## Paths as texts -/

namespace Path

/-- The names on a path, between its slashes. -/
def segments (path : String) : List String :=
  (path.toList.splitOn '/').map String.ofList

/-- The place that a name leads to from another place. Places are lists of names from the working
directory, or from the root, which has the name of a slash. -/
def step (here : List String) (name : String) : List String :=
  if name = "" ∨ name = "." then here
  else if name ≠ ".." then here ++ [name]
  else
    match here.getLast? with
    | none => [name]
    | some last =>
      if last = ".." then here ++ [name] else if last = "/" then here else here.dropLast

/-- The place that a path leads to if all names on its way are folders. -/
def place (path : String) : List String :=
  (segments path).foldl step (if path.toList.head? = some '/' then ["/"] else [])

/-- A path behind another one; an absolute path stands for itself. -/
def join (base path : String) : String :=
  if path.toList.head? = some '/' ∨ base.isEmpty then path
  else if base.toList.getLast? = some '/' then base ++ path
  else base ++ "/" ++ path

/-- The names that count, the last first: empty ones and points say nothing, but for a point that a
path starts with. -/
def reversedNames (path : String) : List String :=
  match segments path with
  | first :: rest =>
    (rest.filter fun s => s ≠ "" ∧ s ≠ ".").reverse ++ (if first = "" then [] else [first])
  | [] => []

/-- The last name of a path. -/
def fileName? (path : String) : Option String :=
  match reversedNames path with
  | name :: _ => if name = "." ∨ name = ".." then none else some name
  | [] => none

/-- A name split at its last point, if that is not its first character. -/
def splitName (name : String) : String × Option String :=
  let backwards := name.toList.reverse
  let extension := backwards.takeWhile (· != '.')
  match backwards.drop extension.length with
  | _ :: c :: stem => (String.ofList (c :: stem).reverse, some (String.ofList extension.reverse))
  | _ => (name, none)

/-- The last name without its extension. -/
def stem (path : String) : String := ((fileName? path).map fun name => (splitName name).1).getD ""

/-- The extension of the last name. -/
def extension? (path : String) : Option String :=
  (fileName? path).bind fun name => (splitName name).2

/-- A path, given backwards, without slashes and single points at its end. -/
def trimEnd : List Char → List Char
  | '/' :: rest => trimEnd rest
  | '.' :: '/' :: rest => trimEnd ('/' :: rest)
  | path => path
termination_by path => path.length

/-- The folder of a path, as far as the path names one. -/
def parent (path : String) : String :=
  let trimmed := trimEnd path.toList.reverse
  let above := trimEnd (trimmed.dropWhile (· != '/'))
  if above.isEmpty ∧ path.toList.head? = some '/' then "/" else String.ofList above.reverse

/-- Paths in the order of the first names that differ. -/
def compareNames : List String → List String → Ordering
  | [], [] => .eq
  | [], _ :: _ => .lt
  | _ :: _, [] => .gt
  | a :: as, b :: bs => (compare a b).then (compareNames as bs)

end Path

/-! ## What is where -/

namespace Disk

/-- The content of a file. -/
def file? (disk : Disk) (names : List String) : Option ByteArray :=
  (disk.files.find? fun entry => entry.1 == names).map Prod.snd

/-- Whether names lead to a folder: the working directory, one on the way to a file, or one of those
that are listed. -/
def isFolderAt (disk : Disk) (names : List String) : Bool :=
  names.isEmpty || disk.folders.contains names ||
    disk.files.any fun entry => names.isPrefixOf entry.1 && entry.1 != names

/-- Follows names from a folder. -/
def follow (disk : Disk) : (here names : List String) → Except DiskError (List String)
  | here, [] => .ok here
  | here, name :: rest =>
    if !disk.isFolderAt here then
      .error (if (disk.file? here).isSome then .notFolder else .notFound)
    else follow disk (Path.step here name) rest

/-- Where a path leads. -/
def locate (disk : Disk) (path : String) : Except DiskError (List String) :=
  match Path.segments path with
  | [""] => .error .notFound
  | "" :: rest => disk.follow ["/"] rest
  | names => disk.follow [] names

/-- Whether a path leads to a file. -/
def isFile (disk : Disk) (path : String) : Bool :=
  match disk.locate path with
  | .ok names => (disk.file? names).isSome
  | .error _ => false

/-- Whether a path leads to a folder. -/
def isFolder (disk : Disk) (path : String) : Bool :=
  match disk.locate path with
  | .ok names => disk.isFolderAt names
  | .error _ => false

/-- Reads a file as text. -/
def readText (disk : Disk) (path : String) : Except DiskError String :=
  match disk.locate path with
  | .error e => .error e
  | .ok names =>
    match disk.file? names with
    | some content =>
      match String.fromUTF8? content with
      | some text => .ok text
      | none => .error .notText
    | none => .error (if disk.isFolderAt names then .isFolder else .notFound)

/-- The paths of the files below a folder, in the order of their names. -/
def filesBelow (disk : Disk) (path : String) : List String :=
  match disk.locate path with
  | .error _ => []
  | .ok folder =>
    let below := disk.files.filterMap fun entry =>
      if folder.isPrefixOf entry.1 then some (entry.1.drop folder.length) else none
    let sorted := below.mergeSort fun a b => (Path.compareNames a b).isLE
    sorted.map fun names => Path.join path ("/".intercalate names)

/-- The number of bytes in all files. -/
def size (disk : Disk) : Nat := disk.files.foldl (fun total entry => total + entry.2.size) 0

end Disk

end Stencil
