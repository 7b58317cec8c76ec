import LineScope.Config.Discovery

/-! File systems given by a list of files and directories below one directory. Outside of it there
are no files. -/
namespace LineScope

inductive FileEntry where
  | file (content : Content)
  | directory
  deriving DecidableEq, Repr

/-- A place below the directory, innermost component first and without `..`. Places deep down share
long beginnings, so the depth is what tells most of them apart. -/
structure Place where
  depth : Nat
  names : List String
  deriving DecidableEq, Repr

namespace Place

def top : Place := ⟨0, []⟩

def step? (place : Place) (name : String) : Option Place :=
  if name = ".." then
    match place.names with
    | [] => none
    | _ :: above => some ⟨place.depth - 1, above⟩
  else some ⟨place.depth + 1, name :: place.names⟩

end Place

/-- Entries by their places, the latest first; of two for the same place the later one counts. -/
structure FileTree where
  entries : List (Place × FileEntry)
  deriving DecidableEq, Repr

namespace FileTree

def entry? (t : FileTree) (place : Place) : Option FileEntry := t.entries.lookup place

def isDirectory (t : FileTree) (place : Place) : Bool :=
  place.names.isEmpty || t.entry? place = some .directory

/-- Follows components from a place on and adds an entry at the end. Every place on the way becomes a
directory, also where the next component goes up again. -/
def addFrom (t : FileTree) (entry : FileEntry) (place : Place) : List String → FileTree
  | [] => ⟨(place, entry) :: t.entries⟩
  | name :: rest =>
    let t : FileTree := ⟨(place, .directory) :: t.entries⟩
    match place.step? name with
    | some next => addFrom t entry next rest
    | none => t

/-- Adds an entry; an absolute path lies outside. -/
def add (t : FileTree) (path : Path) (entry : FileEntry) : FileTree :=
  if path.isAbsolute then t else t.addFrom entry .top path.components

def ofList (listed : List (Path × FileEntry)) : FileTree :=
  listed.foldl (fun t (path, entry) => t.add path entry) ⟨[]⟩

/-- Follows components from a directory on. Every place on the way has to be a directory, also where
the next component goes up again. -/
def resolve? (t : FileTree) (place : Place) : List String → Option Place
  | [] => some place
  | name :: rest =>
    if t.isDirectory place then (place.step? name).bind fun next => resolve? t next rest else none

def content? (t : FileTree) (path : Path) : Option Content :=
  if path.isAbsolute then none
  else match (t.resolve? .top path.components).bind t.entry? with
    | some (.file content) => some content
    | _ => none

def fileSystem (t : FileTree) : FileSystem := ⟨t.content?⟩

end FileTree

end LineScope
