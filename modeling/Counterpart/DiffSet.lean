import Counterpart.Outcome

/-!
# Sets of differences

A `DiffSet` gathers what several reconciliations give. Differences between the same two files are
merged, and each stays at the place where its files first came up.
-/

namespace Counterpart

/-- The differences of a whole project, at most one for every two files, and all warnings. -/
structure DiffSet where
  diffs : List FileDiff := []
  warnings : List Warning := []

namespace DiffSet

/-- Add a difference, merging it into one between the same files. -/
def insert (s : DiffSet) (d : FileDiff) : DiffSet :=
  { s with diffs := FileDiff.insertInto s.diffs d }

/-- Add all that a reconciliation gives. -/
def absorb (s : DiffSet) (o : Outcome) : DiffSet where
  diffs := o.diffs.foldl FileDiff.insertInto s.diffs
  warnings := s.warnings ++ o.warnings

/-- The difference between the files at two paths. -/
def get? (s : DiffSet) (sourcePath targetPath : String) : Option FileDiff :=
  s.diffs.find? fun d => d.isBetween sourcePath targetPath

/-- The number of differences. -/
def size (s : DiffSet) : Nat :=
  s.diffs.length

/-- Whether there is no difference. -/
def isEmpty (s : DiffSet) : Bool :=
  s.diffs.isEmpty

/-- The sizes of all differences. -/
def summaries (s : DiffSet) : List FileSummary :=
  s.diffs.map FileDiff.summary

end DiffSet

end Counterpart
