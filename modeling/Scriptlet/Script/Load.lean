import Scriptlet.Text.Utf8

/-
  Paths, folders and the scripts in them.

  Key declarations include:
    * `Path.fileName?`
    * `Folder`
    * `Folder.contents?`
    * `Script`
    * `Script.Fault`
    * `Script.load`

  Paths are read as on systems with `/` between names.
-/

namespace Scriptlet

namespace Path

/- The parts of a path between slashes. -/
def parts (path : String) : List String := path.splitOn "/"

/- The parts that lead somewhere. -/
def names (path : String) : List String := (parts path).filter fun part => part ≠ "" && part ≠ "."

/- The last name of a path. -/
def fileName? (path : String) : Option String :=
  match (names path).getLast? with
  | some name => if name = ".." then none else some name
  | none => none

/-
  What follows the last dot of the last name.  A name whose
  only dot comes first has no extension.
-/
def extension? (path : String) : Option String :=
  match fileName? path with
  | none => none
  | some name =>
      match (name.splitOn ".").reverse with
      | [] => none
      | [_] => none
      | [_, ""] => none
      | extension :: _ => some extension

/- A character of a path shown in quotes. -/
def shownChar (c : Char) : List Char :=
  match c with
  | '"' => ['\\', '"']
  | '\\' => ['\\', '\\']
  | '\t' => ['\\', 't']
  | '\r' => ['\\', 'r']
  | '\n' => ['\\', 'n']
  | '\x00' => ['\\', '0']
  | c =>
      if c.toNat < 32 || c.toNat = 127 then
        '\\' :: 'u' :: '\x7b' :: (Nat.toDigits 16 c.toNat ++ ['\x7d'])
      else [c]

/- A path in quotes, control characters escaped. -/
def shown (path : String) : String :=
  String.ofList ('"' :: (path.toList.flatMap shownChar ++ ['"']))

end Path

/- Files by their path inside the folder. -/
structure Folder where
  files : List (List String × List UInt8)
  deriving Repr

namespace Folder

/- A folder of files named by paths. -/
def ofFiles (files : List (String × List UInt8)) : Folder where
  files := files.map fun file => (Path.names file.1, file.2)

/- A place a path leads to. -/
inductive Place where
  | inside (path : List String)
  | outside
  deriving DecidableEq, Repr

def file? (folder : Folder) (path : List String) : Option (List UInt8) := folder.files.lookup path

/- Does some file lie below this path? -/
def isDirectory (folder : Folder) (path : List String) : Bool :=
  path.isEmpty || folder.files.any fun file =>
      path.length < file.1.length && path.isPrefixOf file.1

/-
  Follow the parts of a path.  A name leads on only from a
  directory, and nothing is known outside the folder but
  that the folders around it exist.
-/
def follow (folder : Folder) :
    Place → List String → Option Place
  | place, [] => some place
  | .outside, part :: others =>
      if part = "" || part = "." || part = ".." then
        folder.follow .outside others
      else none
  | .inside path, part :: others =>
      if folder.isDirectory path then
        if part = "" || part = "." then
          folder.follow (.inside path) others
        else if part = ".." then
          if path.isEmpty then folder.follow .outside others
          else folder.follow (.inside path.dropLast) others
        else folder.follow (.inside (path ++ [part])) others
      else none

/- The place of a path that is not empty. -/
def place? (folder : Folder) (path : String) : Option Place :=
  match Path.parts path with
  | [""] => none
  | "" :: others => folder.follow .outside others
  | parts => folder.follow (.inside []) parts

/- The contents of the file at a path. -/
def contents? (folder : Folder) (path : String) : Option (List UInt8) :=
  match folder.place? path with
  | some (.inside path) => folder.file? path
  | _ => none

/- Is there a file or a directory at a path? -/
def holds (folder : Folder) (path : String) : Bool :=
  match folder.place? path with
  | some (.inside path) =>
      folder.isDirectory path || (folder.file? path).isSome
  | some .outside => true
  | none => false

end Folder

/- A source text and the name that faults give its file. -/
structure Script where
  source : String
  fileName : String
  deriving DecidableEq, Repr

namespace Script

inductive Fault where
  | badExtension
  | notFound (path : String)
  | badEncoding (fault : Utf8.Fault)
  deriving DecidableEq, Repr

/- The extension scripts have to carry. -/
def extension : String := "mni"

def Fault.message : Fault → String
  | .badExtension =>
      "Mani scripts must end with '." ++ extension ++ "'."
  | .notFound path => path ++ ": File not Found"
  | .badEncoding fault => fault.message

/- Is the fault about the path that was given? -/
def Fault.isPath : Fault → Bool
  | .badExtension => true
  | .notFound _ => true
  | .badEncoding _ => false

/-
  Read the contents found at a path, whatever its extension.
-/
def read (path : String) (contents : Option (List UInt8)) : Except Fault Script :=
  match contents with
  | none => .error (.notFound path)
  | some bytes =>
      match Utf8.decode bytes with
      | .error fault => .error (.badEncoding fault)
      | .ok source =>
          .ok ⟨source, (Path.fileName? path).getD path⟩

/- Read a file that has to be a script. -/
def load (path : String) (contents : Option (List UInt8)) : Except Fault Script :=
  if Path.extension? path = some extension then
    read path contents
  else .error .badExtension

end Script

end Scriptlet
