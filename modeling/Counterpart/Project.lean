import Counterpart.DiffSet

/-!
# Projects

`Project.diff` reconciles two versions of a project: the classes that kept their names, then those
that were renamed, then the refactorings of the project as a whole.
-/

namespace Counterpart

/-- Two versions of a project, with what corresponds in them. -/
structure Project where
  versions : Versions
  /-- The classes that kept their names. -/
  commonClasses : List ClassPair := []
  renamedClasses : List ClassPair := []
  refactorings : List Refactoring := []

/-- How a project is to be reconciled. -/
structure ProjectConfig where
  alignment : AlignmentConfig := {}
  /-- Whether renamed classes are taken into account. -/
  includeRenamed : Bool := true

namespace Project

/-- The reconciliations of a project, in order. -/
def outcomes (config : ProjectConfig) (p : Project) : List Outcome :=
  let classes := p.commonClasses ++ if config.includeRenamed then p.renamedClasses else []
  classes.map (Outcome.ofClassPair config.alignment p.versions) ++
    [Outcome.ofRefactorings config.alignment p.versions p.refactorings]

/-- The differences of a project, one for every two files that are linked. -/
def diff (config : ProjectConfig) (p : Project) : DiffSet :=
  (p.outcomes config).foldl DiffSet.absorb {}

end Project

end Counterpart
