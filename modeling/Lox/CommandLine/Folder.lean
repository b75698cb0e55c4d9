/-
**Folders.** Files by their paths, and how reading one can fail.

* `Path.resolve` is the full path of an argument, with empty parts and single dots dropped.
* `Folder.read` follows a path through a folder.
* `decode` turns bytes into a text, with line feeds for all line ends.
-/

namespace Lox

/-- Why a file cannot be read. -/
inductive ReadFault where
  | missing | isFolder | notFolder
deriving DecidableEq

/-- The wording of a fault. -/
def ReadFault.message : ReadFault → String
  | missing => "No such file or directory"
  | isFolder => "Is a directory"
  | notFolder => "Not a directory"

namespace Path

/-- The parts of a path. -/
def parts (path : String) : List String :=
  (path.splitOn "/").filter fun part => part != "" && part != "."

/-- Whether a path starts at the root. -/
def isAbsolute (path : String) : Bool :=
  path.startsWith "/"

/-- The root as a path spells it: two slashes are kept, and any other number counts as one. -/
def root (path : String) : String :=
  if path.startsWith "//" && !path.startsWith "///" then "//" else "/"

/-- The full path of an argument. -/
def resolve (current argument : String) : String :=
  if isAbsolute argument then root argument ++ "/".intercalate (parts argument)
  else "/".intercalate (current :: parts argument)

end Path

/-- The files in a folder and in the folders in it, each with the parts of its path. -/
structure Folder where
  files : List (List String × ByteArray)

namespace Folder

/-- Whether a path leads to a folder. -/
def hasFolder (folder : Folder) (path : List String) : Bool :=
  folder.files.any fun (file, _) => path.isPrefixOf file && path.length < file.length

/-- What a path finds that starts around this folder. All that is known to lie there is the folders
further out, of which the outermost lies in itself. -/
def outside (parts : List String) : ReadFault :=
  if parts.all (· == "..") then .isFolder else .missing

/-- Follows the parts of a path from a folder inside this one. -/
def follow (folder : Folder) : (place : List String) → List String → Except ReadFault ByteArray
  | _, [] => .error .isFolder
  | place, ".." :: more =>
    if place.isEmpty then .error (outside more)
    else follow folder place.dropLast more
  | place, part :: more =>
    let next := place ++ [part]
    match folder.files.lookup next with
    | some bytes => if more.isEmpty then .ok bytes else .error .notFolder
    | none => if folder.hasFolder next then follow folder next more else .error .missing

/-- Reads the file that an argument names. -/
def read (folder : Folder) (argument : String) : Except ReadFault ByteArray :=
  if Path.isAbsolute argument then .error (outside (Path.parts argument))
  else folder.follow [] (Path.parts argument)

end Folder

/-- A text with line feeds for all line ends. -/
def unifyLineEnds : List Char → List Char
  | [] => []
  | '\r' :: '\n' :: rest => '\n' :: unifyLineEnds rest
  | '\r' :: rest => '\n' :: unifyLineEnds rest
  | c :: rest => c :: unifyLineEnds rest

/-- The text that bytes stand for, if they stand for one. -/
def decode (bytes : ByteArray) : Option String :=
  (String.fromUTF8? bytes).map fun text => String.ofList (unifyLineEnds text.toList)

end Lox
