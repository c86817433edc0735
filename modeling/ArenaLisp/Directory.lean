/-!
# Files in a directory

A directory is a list of files, each with the names that lead to it.  It answers as a file system
would whose current folder it is: each name of a path but the last has to lead to a folder, the last
to a file, and nothing is known of what lies outside, except that the root is its own parent.
-/

namespace ArenaLisp

/-- Why a text could not be loaded. -/
inductive FileError where
  | notFound
  | notAFolder
  | isAFolder
  | nameTooLong
  /-- The bytes are no text. -/
  | notText
  /-- Something else, in the words of the system. -/
  | other (message : String)
  deriving DecidableEq, Repr

def FileError.message : FileError → String
  | .notFound => "No such file or directory (os error 2)"
  | .notAFolder => "Not a directory (os error 20)"
  | .isAFolder => "Is a directory (os error 21)"
  | .nameTooLong => "File name too long (os error 36)"
  | .notText => "stream did not contain valid UTF-8"
  | .other message => message

/-- Files, each with the names that lead to it, outermost first. -/
structure Directory where
  files : List (List String × ByteArray)

namespace Directory

/-- The most bytes that a name can have. -/
def maxName : Nat := 255

/-- The most bytes that a path can have. -/
def maxPath : Nat := 4095

/-- The names in a path. -/
def names (path : String) : List String :=
  (path.splitOn "/").filter fun name => name != "" && name != "."

/-- The directory of files given with their paths. -/
def ofPaths (files : List (String × ByteArray)) : Directory :=
  ⟨files.map fun (path, content) => (names path, content)⟩

/-- The content of the file that names lead to. -/
def file? (d : Directory) (place : List String) : Option ByteArray :=
  (d.files.find? (·.1 == place)).map (·.2)

/-- Whether names lead to a folder: to the directory itself, or to where a file lies below. -/
def isFolder (d : Directory) (place : List String) : Bool :=
  place.isEmpty || d.files.any fun (file, _) => place.isPrefixOf file && file != place

/-- What becomes of names that lead out of the directory: only parents are known to be there. -/
def outside (names : List String) : FileError :=
  match names.dropWhile (· == "..") with
  | [] => .isAFolder
  | name :: _ => if maxName < name.utf8ByteSize then .nameTooLong else .notFound

/-- Where names lead from a place, which is given with its last name first. -/
def walk (d : Directory) : List String → List String → Except FileError (List String)
  | place, [] => .ok place.reverse
  | [], ".." :: names => .error (outside names)
  | place, name :: names =>
    if d.isFolder place.reverse then
      if maxName < name.utf8ByteSize then .error .nameTooLong
      else d.walk (if name == ".." then place.tail else name :: place) names
    else .error (if (d.file? place.reverse).isSome then .notAFolder else .notFound)

/-- The bytes of the file that a path leads to. -/
def load (d : Directory) (path : String) : Except FileError ByteArray := do
  if path.isEmpty then throw .notFound
  if maxPath < path.utf8ByteSize then throw .nameTooLong
  if path.startsWith "/" then throw (outside (names path))
  let place ← d.walk [] (names path)
  if d.isFolder place then throw .isAFolder
  let some content := d.file? place | throw .notFound
  if path.endsWith "/" || path.endsWith "/." then throw .notAFolder
  return content

end Directory

end ArenaLisp
