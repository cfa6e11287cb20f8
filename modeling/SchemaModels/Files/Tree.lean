import SchemaModels.Files.Fault
import SchemaModels.Keyed

/-!
# File trees

A tree of files and directories. What stands in it has a place: the names that lead there from the
root.

* `FileTree.get?`, `FileTree.put`, `FileTree.erase`: what stands at a place, and other trees with
  something or nothing there.
* `FileTree.follow`: the place where steps end.
* `FileTree.paths`: the paths of everything in a tree.
-/

namespace SchemaModels

/-- A file, or a directory with its entries. -/
inductive FileTree where
  | file (content : ByteArray)
  | directory (entries : List (String × FileTree))

namespace FileTree

/-- The directory without entries. -/
def empty : FileTree := directory []

def isDirectory : FileTree → Bool
  | directory _ => true
  | file _ => false

/-- An entry of a directory. -/
def child? (name : String) : FileTree → Option FileTree
  | directory entries => entries.lookup name
  | file _ => none

/-- What names lead to. -/
def get? : FileTree → List String → Option FileTree
  | t, [] => some t
  | t, name :: rest => (t.child? name).bind fun t => t.get? rest

/-- Put something where names lead to. -/
def put : FileTree → List String → FileTree → FileTree
  | _, [], node => node
  | file content, _ :: _, _ => file content
  | directory entries, name :: rest, node =>
      directory
        (Keyed.upsert Prod.fst (name, ((entries.lookup name).getD empty).put rest node) entries)

/-- Take away the entry that names lead to. -/
def erase : FileTree → List String → FileTree
  | t, [] => t
  | file content, _ :: _ => file content
  | directory entries, [name] => directory (entries.filter fun e => e.1 != name)
  | directory entries, name :: rest =>
      match entries.lookup name with
      | some t => directory (Keyed.upsert Prod.fst (name, t.erase rest) entries)
      | none => directory entries

/-! ### Steps -/

/-- The place where some steps from a place end. Nothing is above the root, so that a step up stays
there. -/
def follow (t : FileTree) : List String → List String → Except FileFault (List String)
  | [], place => .ok place
  | step :: rest, place =>
      match t.get? place with
      | some (directory entries) =>
          if step = "." then follow t rest place
          else if step = ".." then follow t rest place.dropLast
          else if (entries.lookup step).isSome then follow t rest (place ++ [step])
          else .error .notFound
      | some (file _) => .error .notDirectory
      | none => .error .notFound

/-! ### Listing -/

mutual

/-- The paths of everything in a directory whose path is given, directories with a slash. -/
def pathsBelow (base : String) : FileTree → List String
  | file _ => []
  | directory entries => pathsOf base entries

/-- The paths of entries and of everything below them. -/
def pathsOf (base : String) : List (String × FileTree) → List String
  | [] => []
  | (name, file _) :: rest => (base ++ name) :: pathsOf base rest
  | (name, directory entries) :: rest =>
      (base ++ name ++ "/") :: pathsBelow (base ++ name ++ "/") (directory entries) ++
        pathsOf base rest

end

/-- The paths of everything in a tree. -/
def paths (t : FileTree) : List String := t.pathsBelow ""

end FileTree

end SchemaModels
