import JvmAssembler.Bytes
import Std.Data.HashSet.Basic

/-!
# File trees

Directories and files by their paths, as far as writing class files is concerned: making directories
and writing files. Paths are texts whose components are separated by `/`.
-/

namespace JvmAssembler

namespace Path

/-- The path of `name` in `directory`. An absolute name is a path by itself, and no separator is
added behind one or behind an empty directory. -/
def join (directory name : String) : String :=
  if name.startsWith "/" then name
  else if directory.isEmpty || directory.endsWith "/" then directory ++ name
  else directory ++ "/" ++ name

/-- The components of a path, without empty ones and those that stand for the directory itself. An
absolute path starts with the component `/`. -/
def components (path : String) : List String :=
  let names := (path.splitOn "/").filter fun name => !(name.isEmpty || name == ".")
  if path.startsWith "/" then "/" :: names else names

/-- The path without leading separators and leading components that stand for the directory itself. -/
def trimStart (path : String) : String :=
  "/".intercalate ((path.splitOn "/").dropWhile fun name => name.isEmpty || name == ".")

/-- The path of the directory that holds what a path leads to: the path up to the last of the
components before its name, written as it is in the path. -/
def parent (path : String) : String :=
  let names := (path.splitOn "/").dropLast.reverse.dropWhile fun name => name.isEmpty || name == "."
  "/".intercalate names.reverse

/-- The components of the directory above a directory. The root is above itself, and `..` leads out of
the directory in which relative paths start. -/
def up (directory : List String) : List String :=
  match directory.getLast? with
  | some "/" => directory
  | none | some ".." => directory ++ [".."]
  | some _ => directory.dropLast

end Path

/-- Directories and files, by the components of their paths. -/
structure FileTree where
  directories : Std.HashSet (List String) := {["/"]}
  files : List (List String × Bytes) := []

namespace FileTree

/-- The longest name of a file or directory, in bytes. -/
def maxName : Nat := 255

/-- The longest path, in bytes. -/
def maxPath : Nat := 4095

/-- Whether a text has no null character. No text with one is a path or a part of a path. -/
def hasNoNull (text : String) : Bool := !text.contains (Char.ofNat 0)

/-- Whether a text can be looked up as a path. -/
def validPath (path : String) : Bool := path.utf8ByteSize ≤ maxPath && hasNoNull path

/-- Whether a file or directory may have a name. -/
def validName (name : String) : Bool := name.utf8ByteSize ≤ maxName && hasNoNull name

/-- Whether there is a directory at a path. The directory in which relative paths start is there, and
so are those above it. -/
def hasDirectory (tree : FileTree) (path : List String) : Bool :=
  path.all (· == "..") || tree.directories.contains path

/-- Whether there is a file at a path. -/
def hasFile (tree : FileTree) (path : List String) : Bool := tree.files.any (·.1 == path)

/-- Makes the directories on the way from one directory to another, as far as they are missing, and
says whether the way exists afterwards. A file on the way stops it. -/
def makeDirectories (tree : FileTree) (current : List String) : List String → Bool × FileTree
  | [] => (true, tree)
  | name :: rest =>
    if name = ".." then tree.makeDirectories (Path.up current) rest
    else
      let path := current ++ [name]
      if tree.hasDirectory path then tree.makeDirectories path rest
      else if tree.hasFile path || !validName name then (false, tree)
      else FileTree.makeDirectories { tree with directories := tree.directories.insert path } path rest

/-- The directory at the end of a way, if all directories on it exist. -/
def find? (tree : FileTree) (current : List String) : List String → Option (List String)
  | [] => some current
  | name :: rest =>
    if name = ".." then tree.find? (Path.up current) rest
    else
      let path := current ++ [name]
      if tree.hasDirectory path then tree.find? path rest else none

/-- The tree with a file at a path, if it can be written. A file that is there already is replaced. -/
def writeFile? (tree : FileTree) (path : String) (bytes : Bytes) : Option FileTree := do
  let components := Path.components path
  let name ← components.getLast?
  let directory ← tree.find? [] components.dropLast
  let file := directory ++ [name]
  if !validPath path || !validName name || tree.hasDirectory file then none
  else return { tree with files := (file, bytes) :: tree.files.filter (·.1 != file) }

/-- Writes a file, after making the directories on the way to it if `makeMissing` is set, and says
whether the file was written. No directory is made if the path of the last of them is not valid, while
a path of the file that is not valid leaves the directories behind. -/
def save (tree : FileTree) (path : String) (bytes : Bytes) (makeMissing : Bool) : Bool × FileTree :=
  let (ready, tree) :=
    if !makeMissing then (true, tree)
    else if validPath (Path.parent path) then
      tree.makeDirectories [] (Path.components path).dropLast
    else (false, tree)
  if ready then
    match tree.writeFile? path bytes with
    | some tree => (true, tree)
    | none => (false, tree)
  else (false, tree)

/-- The files in the directory in which relative paths start, with their paths, sorted by path. -/
def listing (tree : FileTree) : List (String × Bytes) :=
  let inside := tree.files.filter fun (path, _) => path.head? != some "/" && path.head? != some ".."
  let files := inside.map fun (path, bytes) => ("/".intercalate path, bytes)
  files.mergeSort fun a b => a.1 ≤ b.1

end FileTree

end JvmAssembler
