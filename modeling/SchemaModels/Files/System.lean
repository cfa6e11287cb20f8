import SchemaModels.Files.Path
import SchemaModels.Files.Tree

/-!
# File systems

A program sees one tree of files and directories, without links. It follows an absolute path from
the root of the tree, any other path from the directory that it works in. What the tree does not
show is up to a host: the names of staged files, and which changes are refused, such as for want of
permissions or of space.

* `FileSystem.locate`: the place of what a path denotes.
* `FileSystem.readText`, `FileSystem.makeDirectory`: what programs do with paths.
* `FileSystem.stage`, `write`, `sync`, `persist`, `discard`: the steps by which a file is staged
  under a name that nothing has, and takes the place of a path or goes away again.
-/

namespace SchemaModels

/-! ### Hosts -/

/-- A change that a host is asked for, at a place. -/
inductive FileChange where
  | makeDirectory (place : List String)
  | createFile (place : List String)
  | write (place : List String) (content : ByteArray)
  | sync (place : List String)
  | rename (source target : List String)
  | removeFile (place : List String)

/-- What decides on changes besides the tree. -/
structure Host where
  /-- The names that are tried for a staged file in a directory, one after another. -/
  stagedNames : FileTree → List String → List String
  /-- The fault of a change that is refused for a reason the tree does not show. -/
  refusal? : FileTree → FileChange → Option FileFault
  /-- What a file holds after a content could not be written to it. -/
  partOf : FileTree → ByteArray → ByteArray

namespace Host

/-- Names for staged files, of which a directory cannot have all. -/
def numberedNames (t : FileTree) (place : List String) : List String :=
  match t.get? place with
  | some (.directory entries) =>
      (List.range (entries.length + 1)).map fun n => ".tmp" ++ String.ofList (Nat.toDigits 10 n)
  | _ => []

/-- The host that refuses nothing. -/
def plain : Host where
  stagedNames := numberedNames
  refusal? _ _ := none
  partOf _ content := content

end Host

/-- A file system as a program sees it. -/
structure FileSystem where
  tree : FileTree
  /-- The place of the directory that the program works in. -/
  here : List String := []
  host : Host := .plain

namespace FileSystem
variable (s : FileSystem)

/-! ### Paths -/

/-- Where a path is followed from. -/
def start (path : String) : List String := if Path.isAbsolute path.toList then [] else s.here

/-- The place of what a path denotes. -/
def locate (path : String) : Except FileFault (List String) :=
  if path.isEmpty then .error .notFound
  else s.tree.follow (Path.steps path.toList) (s.start path)

/-- Whether a path denotes anything. -/
def isPresent (path : String) : Bool := (s.locate path).toOption.isSome

/-- What a path denotes. -/
def node (path : String) : Except FileFault FileTree := do
  match s.tree.get? (← s.locate path) with
  | some node => .ok node
  | none => .error .notFound

/-- The place of the directory that the last name of a path stands in, and that name. A path without
names is the root, which stays in itself. -/
def slot (path : String) : Except FileFault (List String × String) :=
  if path.isEmpty then .error .notFound
  else do
    let names := Path.names path.toList
    let place ← s.tree.follow (names.dropLast ++ ["."]) (s.start path)
    .ok (place, names.getLast?.getD ".")

/-! ### Reading -/

/-- The text of a file. -/
def readText (path : String) : Except FileFault String := do
  match ← s.node path with
  | .directory _ => .error .isDirectory
  | .file content =>
      match String.fromUTF8? content with
      | some text => .ok text
      | none => .error .notText

/-- Whether a path denotes a directory. -/
def hasDirectory (path : String) : Bool := (s.node path).toOption.any FileTree.isDirectory

/-! ### Changes -/

/-- The file system with another tree. -/
def withTree (t : FileTree) : FileSystem := { s with tree := t }

/-- The file system with another tree, unless the host refuses the change. -/
def change (c : FileChange) (t : FileTree) : Except FileFault FileSystem :=
  match s.host.refusal? s.tree c with
  | some fault => .error fault
  | none => .ok (s.withTree t)

/-- The file system with one more directory. -/
def makeDirectory (path : String) : Except FileFault FileSystem := do
  let (place, name) ← s.slot path
  let target := place ++ [name]
  if Path.isDots name || (s.tree.get? target).isSome then .error .alreadyExists
  else s.change (.makeDirectory target) (s.tree.put target .empty)

/-! ### Staged files -/

/-- Whether a name can be given to a new file in a directory. -/
def isFree (place : List String) (name : String) : Bool :=
  !Path.isDots name && (s.tree.get? (place ++ [name])).isNone

/-- A new empty file in a directory, under the first of the names tried that is free, and its
place. -/
def stage (directory : String) : Except FileFault (List String × FileSystem) := do
  let place ← s.locate directory
  match s.tree.get? place with
  | some (.directory _) =>
      match (s.host.stagedNames s.tree place).find? (s.isFree place) with
      | some name => do
          let target := place ++ [name]
          let s' ← s.change (.createFile target) (s.tree.put target (.file ByteArray.empty))
          .ok (target, s')
      | none => .error .alreadyExists
  | some (.file _) => .error .notDirectory
  | none => .error .notFound

/-- A content is written to a staged file, or a part of it. -/
def write (staged : List String) (content : ByteArray) : Except FileFault Unit × FileSystem :=
  match s.host.refusal? s.tree (.write staged content) with
  | some fault =>
      (.error fault, s.withTree (s.tree.put staged (.file (s.host.partOf s.tree content))))
  | none => (.ok (), s.withTree (s.tree.put staged (.file content)))

/-- Whether what is written to a staged file lasts. -/
def sync (staged : List String) : Except FileFault Unit :=
  match s.host.refusal? s.tree (.sync staged) with
  | some fault => .error fault
  | none => .ok ()

/-- A staged file takes the place of a path, where no directory may be. -/
def persist (staged : List String) (path : String) : Except FileFault FileSystem := do
  let (place, name) ← s.slot path
  let target := place ++ [name]
  if Path.isDots name then .error .busy
  else if Path.endsOpen path.toList then .error .notDirectory
  else if (s.tree.get? target).any FileTree.isDirectory then .error .isDirectory
  else
    match s.tree.get? staged with
    | some node => s.change (.rename staged target) ((s.tree.erase staged).put target node)
    | none => .error .notFound

/-- A staged file goes away, if the host lets it. -/
def discard (staged : List String) : FileSystem :=
  match s.change (.removeFile staged) (s.tree.erase staged) with
  | .ok s' => s'
  | .error _ => s

end FileSystem

end SchemaModels
