import HttpEcho.Bytes
import HttpEcho.Fault

/-!
# Files of a directory

The files of a working directory, held in memory, and looking one up by its path.
-/

namespace HttpEcho

/-- The files below a directory, each with the names on the way to it, its own the last. -/
structure Directory where
  files : List (List String × Bytes)

namespace Directory

/-- The parts of a path. -/
def parts (path : String) : List String := path.splitOn "/"

/-- The directory with the given files, each with its path. -/
def ofFiles (files : List (String × Bytes)) : Directory :=
  ⟨files.map fun (path, bytes) => ((parts path).filter fun p => p ≠ "" && p ≠ ".", bytes)⟩

/-- There is no file of this name. -/
def missing : Fault := ⟨.notFound, "No such file or directory (os error 2)"⟩

/-- A directory is no file. -/
def isDirectory : Fault := ⟨.isADirectory, "Is a directory (os error 21)"⟩

/-- A file is no directory. -/
def isNoDirectory : Fault := ⟨.notADirectory, "Not a directory (os error 20)"⟩

/-- A name is longer than the file system admits. -/
def nameTooLong : Fault := ⟨.invalidFilename, "File name too long (os error 36)"⟩

/-- The number of octets that a name may have. -/
def maxName : Nat := 255

/-- Whether there are files below a place. -/
def isPlace (d : Directory) (place : List String) : Bool :=
  place.isEmpty || d.files.any fun (path, _) => place.isPrefixOf path && place ≠ path

/-- Follow the parts of a path from a place. -/
def follow (d : Directory) (place : List String) : List String → Except Fault Bytes
  | [] =>
    match d.files.lookup place with
    | some bytes => .ok bytes
    | none => .error isDirectory
  | name :: rest =>
    if (d.files.lookup place).isSome then .error isNoDirectory
    else if name = "" ∨ name = "." then d.follow place rest
    else if maxName < name.utf8ByteSize then .error nameTooLong
    else
      let next := place ++ [name]
      if (d.files.lookup next).isSome || d.isPlace next then d.follow next rest
      else .error missing

/-- The root of the file system, where a path leads that begins with a slash. Of what lies there
only the empty file `/dev/null` is known. -/
def root : Directory := ⟨[(["dev", "null"], [])]⟩

/-- The octets of the file with a path. -/
def read (d : Directory) (path : String) : Except Fault Bytes :=
  if path.startsWith "/" then root.follow [] (parts path) else d.follow [] (parts path)

end Directory

end HttpEcho
