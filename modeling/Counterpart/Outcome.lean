import Counterpart.Attempt
import Counterpart.FileDiff
import Counterpart.FilePair.Class

/-!
# Reconciliation

From a class pair, or from a list of refactorings, to the links between the files that it touches.
Links that are found at once come first, in the order in which they were found; then the
expressions that were put off are aligned, in the order in which they came up.
-/

namespace Counterpart

/-- What a reconciliation gives. -/
structure Outcome where
  diffs : List FileDiff
  warnings : List Warning

namespace Outcome

variable (config : AlignmentConfig) (v : Versions)

/-- The links that are found at once. -/
def immediate (cs : List Contribution) : List (FilePair × List Link) :=
  cs.map fun c => (c.files, c.findings.links)

/-- The links between the expressions that were put off. -/
def postponed (cs : List Contribution) : List (FilePair × List Link) :=
  cs.flatMap fun c => c.findings.deferred.map fun l =>
    (c.files, Alignment.simpleLinks config c.files.source c.files.target false l.1 l.2)

/-- The differences that contributions add up to. -/
def collect (cs : List Contribution) : List FileDiff :=
  (immediate cs ++ postponed config cs).foldl FileDiff.record []

/-- Reconcile what was found otherwise with a list of refactorings. -/
def withRefactorings (found : List Contribution) (warnings : List Warning)
    (rs : List Refactoring) : Outcome :=
  let attempts := rs.map (Refactoring.attempt config v)
  { diffs := collect config (found ++ attempts.flatMap Attempt.contributions)
    warnings := warnings ++ attempts.filterMap Attempt.warning }

/-- Reconcile a list of refactorings. -/
def ofRefactorings (rs : List Refactoring) : Outcome :=
  withRefactorings config v [] [] rs

/-- The warnings about changed enum constants without a class body. -/
def constantWarnings (c : ClassPair) : List Warning :=
  (c.changedConstants.filter fun e => e.classBody.isNone).map fun e => .missingClassBody e.name

/-- Reconcile two versions of a class. Without a tree for one of its files nothing is done. -/
def ofClassPair (c : ClassPair) : Outcome :=
  match v.filePair c.before.sourceFile c.after.sourceFile with
  | .error w => ⟨[], [w]⟩
  | .ok p => withRefactorings config v [⟨p, p.classFindings config c⟩] (constantWarnings c)
      c.refactorings

end Outcome

end Counterpart
