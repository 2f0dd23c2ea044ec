import Tern.Project

/-!
Projects as directories. The units are the entries whose names end in `.tn`; beside them stand the
options and what is expected. An entry that is a folder has a name but no text, so that it cannot be
read where a text is needed.
-/

set_option autoImplicit false

namespace Tern

/-- What stands directly in a directory. The contents of a folder do not matter. -/
inductive Entry
  | file (name text : String)
  | folder (name : String)
  deriving DecidableEq, Repr

namespace Entry

def name : Entry → String
  | file name _ | folder name => name

def file? : Entry → Option SourceFile
  | file name text => some ⟨name, text⟩
  | folder _ => none

def text? (e : Entry) : Option String := e.file?.map SourceFile.text

/-- What a name stands for after it was put again. A file takes the place of a file; a folder and a
file never take the place of each other. -/
def replace (new : Entry) : Option Entry → Entry
  | none => new
  | some old =>
    match old, new with
    | file .., file .. => new
    | _, _ => old

end Entry

structure Directory where
  name : String
  entries : List Entry
  deriving DecidableEq, Repr

inductive DirectoryError
  | options
  /-- A unit or an expectation that is no file. -/
  | unreadable (name : String)
  | noExpectation
  deriving DecidableEq, Repr

namespace Directory

def entry? (d : Directory) (name : String) : Option Entry := Table.find? Entry.name name d.entries

/-- A name, a dot and `tn`. -/
def isUnitName (name : String) : Bool := ".tn".toList.isSuffixOf name.toList && 3 < name.length

/-- The file that an entry has to be. -/
def readFile (e : Entry) : Except DirectoryError SourceFile :=
  match e.file? with
  | some file => .ok file
  | none => .error (.unreadable e.name)

def units (d : Directory) : Except DirectoryError (List SourceFile) :=
  ((d.entries.filter fun e => isUnitName e.name).mergeSort fun a b => a.name ≤ b.name).mapM readFile

def options (d : Directory) : Except DirectoryError Options :=
  match d.entry? "tern.toml" with
  | none => .ok .default
  | some e =>
    match e.text?.bind Options.ofText? with
    | some options => .ok options
    | none => .error .options

/-- One code on each line that is not blank. -/
def codes (text : String) : List String :=
  ((Text.toLines text).map Text.trim).filter fun line => !line.isEmpty

def expectation (d : Directory) : Except DirectoryError Expectation :=
  match d.entry? "expected.lir", d.entry? "expected.diagnostics" with
  | some e, _ => (readFile e).map fun file => .lowered file.text
  | none, some e => (readFile e).map fun file => .diagnostics (codes file.text)
  | none, none => .error .noExpectation

def project (d : Directory) : Except DirectoryError Project := do
  let options ← d.options
  let units ← d.units
  let expected ← d.expectation
  return ⟨d.name, units, expected, options⟩

/-- Puts an entry into the directory of the given name, which is made if there is none. -/
def putEntry (name : String) (entry : Option Entry) (ds : List Directory) : List Directory :=
  Table.put Directory.name name (fun old =>
    let entries := (old.map Directory.entries).getD []
    ⟨name, match entry with
      | some e => Table.put Entry.name e.name e.replace entries
      | none => entries⟩) ds

def makeFolder (ds : List Directory) : List String → List Directory
  | [name] => putEntry name none ds
  | [name, folder] => putEntry name (some (.folder folder)) ds
  | _ => ds

/-- Goes along the parts of a path, makes the folders on the way and puts the file at its end. -/
def layOut (text : String) (here : List String) : List String → List Directory → List Directory
  | [], ds => ds
  | [name], ds =>
    match here with
    | [directory] => putEntry directory (some (.file name text)) ds
    | _ => ds
  | part :: parts, ds =>
    if part = ".." then layOut text here.dropLast parts ds
    else layOut text (here ++ [part]) parts (makeFolder ds (here ++ [part]))

def splitPath : List Char → List (List Char)
  | [] => [[]]
  | c :: cs =>
    match splitPath cs with
    | [] => [[c]]
    | part :: parts => if c = '/' then [] :: part :: parts else (c :: part) :: parts

/-- The pieces of a path that lead somewhere: not an empty one, and not a dot alone. -/
def pathParts (path : String) : List String :=
  ((splitPath path.toList).map String.ofList).filter fun part => part != "" && part != "."

/-- The directories that files below a root make up, by their names. -/
def ofPaths (paths : List SourceFile) : List Directory :=
  (paths.foldl (fun ds f => layOut f.text [] (pathParts f.name) ds) []).mergeSort
    fun a b => a.name ≤ b.name

end Directory

end Tern
