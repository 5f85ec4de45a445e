import Counterpart.FilePair.Basic

/-!
# Differences between files

A `FileDiff` holds the links between the nodes of one file pair. A list of them has at most one for
every two paths, in the order in which the paths first came up.
-/

namespace Counterpart

/-- The links between two files. -/
structure FileDiff where
  files : FilePair
  links : LinkSet

/-- The sizes of a difference. -/
structure FileSummary where
  sourcePath : String
  targetPath : String
  /-- The number of links. -/
  linked : Nat
  /-- The number of source nodes without a counterpart. -/
  unlinkedSource : Nat
  /-- The number of target nodes without a counterpart. -/
  unlinkedTarget : Nat
  deriving DecidableEq

namespace FileDiff

/-- The difference with the given links. -/
def ofLinks (p : FilePair) (links : List Link) : FileDiff :=
  ⟨p, .ofList links⟩

/-- Whether a difference is between the files at two paths. -/
def isBetween (d : FileDiff) (sourcePath targetPath : String) : Bool :=
  d.files.sourcePath == sourcePath && d.files.targetPath == targetPath

/-- Add the links of another difference between the same files. -/
def merge (d e : FileDiff) : FileDiff :=
  { d with links := d.links.union e.links }

/-- The number of source nodes without a counterpart. -/
def unlinkedSourceCount (d : FileDiff) : Nat :=
  d.files.source.preOrder.countP fun n => !d.links.hasSource n

/-- The number of target nodes without a counterpart. -/
def unlinkedTargetCount (d : FileDiff) : Nat :=
  d.files.target.preOrder.countP fun n => !d.links.hasTarget n

/-- The sizes of a difference. -/
def summary (d : FileDiff) : FileSummary where
  sourcePath := d.files.sourcePath
  targetPath := d.files.targetPath
  linked := d.links.size
  unlinkedSource := d.unlinkedSourceCount
  unlinkedTarget := d.unlinkedTargetCount

/-- Add a difference to a list, merging it into one between the same files. -/
def insertInto : List FileDiff → FileDiff → List FileDiff
  | [], d => [d]
  | e :: es, d =>
    if e.isBetween d.files.sourcePath d.files.targetPath then e.merge d :: es
    else e :: insertInto es d

/-- Add links between two files to a list of differences. No links leave it as it is. -/
def record (ds : List FileDiff) (found : FilePair × List Link) : List FileDiff :=
  if found.2.isEmpty then ds else insertInto ds (ofLinks found.1 found.2)

end FileDiff

end Counterpart
