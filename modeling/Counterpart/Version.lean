import Counterpart.Tree.Basic

/-!
# Versions

A `Version` holds the syntax trees of one version of a project by the paths of their files.
-/

namespace Counterpart

/-- The trees of one version, at most one for every path. -/
structure Version where
  files : List (String × Tree)

namespace Version

/-- The version without files. -/
def empty : Version := ⟨[]⟩

/-- The tree of the file at a path. -/
def get? (v : Version) (path : String) : Option Tree :=
  v.files.lookup path

/-- Set the tree of the file at a path; a tree that was there before is dropped. -/
def insert (v : Version) (path : String) (t : Tree) : Version :=
  ⟨(path, t) :: v.files.filter fun f => f.1 != path⟩

/-- The version with the given files; of several with one path the last one counts. -/
def ofList (files : List (String × Tree)) : Version :=
  files.foldl (fun v f => v.insert f.1 f.2) empty

/-- The number of files. -/
def size (v : Version) : Nat :=
  v.files.length

/-- Whether there is no file. -/
def isEmpty (v : Version) : Bool :=
  v.files.isEmpty

end Version

end Counterpart
