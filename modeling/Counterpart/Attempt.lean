import Counterpart.FilePair.Body
import Counterpart.Model.Refactoring

/-!
# Links from refactorings

A refactoring adds links between the elements that it connects. They go to the file pair that its
own locations name, which may be another one than that of the class at hand. The elements are taken
in order, and the first one that cannot be handled ends the refactoring with a warning; what came
before it stays.
-/

namespace Counterpart

/-- What was found in one file pair. -/
structure Contribution where
  files : FilePair
  findings : Findings

/-- What became of a refactoring. -/
structure Attempt where
  contributions : List Contribution
  warning : Option Warning

/-- Take steps in order, up to the first that fails. -/
def Attempt.ofSteps : List (Except Warning Contribution) → Attempt
  | [] => ⟨[], none⟩
  | .error w :: _ => ⟨[], some w⟩
  | .ok c :: rest =>
    let later := ofSteps rest
    { later with contributions := c :: later.contributions }

namespace Refactoring

variable (config : AlignmentConfig) (v : Versions)

/-- The name of a declared variable: its first simple name or else its last child. -/
def variableName? (t : Tree) (n : Nat) : Option Nat :=
  (t.childOfKind? n Kind.simpleName).or (t.children n).getLast?

/-- The links between the types and the names of two variables. -/
def variableLinks (p : FilePair) (x y : Variable) : List Link :=
  let types := (both? x.type y.type).bind fun t => p.resolve? t.1.location t.2.location
  let names := (p.resolve? x.location y.location).bind fun l =>
    both? (variableName? p.source l.1) (variableName? p.target l.2)
  types.toList ++ names.toList

/-- Link the types and the names of two variables. -/
def variableStep (x y : Variable) : Except Warning Contribution :=
  (v.filePairOf x.location y.location).map fun p => ⟨p, variableLinks p x y, []⟩

/-- Link two fields. -/
def fieldStep (x y : Attribute) : Except Warning Contribution :=
  (v.filePairOf x.location y.location).map fun p => ⟨p, p.fieldLinks config x y, []⟩

/-- Link the parts of two statements. -/
def compositeStep (x y : Fragment) : Except Warning Contribution :=
  (v.filePairOf x.location y.location).map fun p =>
    ⟨p, (p.resolve? x.location y.location).toList.flatMap fun l =>
      Alignment.compositeLinks config p.source p.target l.1 l.2, []⟩

/-! ### Loops and pipelines -/

/-- Something of the loop with something of the pipeline, as the older with the newer. -/
def orient {α : Type} (side : LoopSide) (loop pipeline : α) : α × α :=
  match side with
  | .before => (loop, pipeline)
  | .after => (pipeline, loop)

/-- Whether a fragment is an enhanced for statement in its version. -/
def isEnhancedFor (version : Version) (f : Fragment) : Bool :=
  (version.get? f.location.file).any fun t =>
    (f.location.resolve t).any fun n => t.kind n == Kind.enhancedForStatement

/-- The variables of a loop with the lambda parameters of the same names. -/
def namesakes (loop pipeline : Fragment) : List (Variable × Variable) :=
  (pipeline.lambdas.flatMap Lambda.parameters).filterMap fun q =>
    (loop.variableNamed? q.name).map fun x => (x, q)

/-- The first lambda parameter that no variable of the loop is named like. -/
def strayParameter? (loop pipeline : Fragment) : Option Variable :=
  (pipeline.lambdas.flatMap Lambda.parameters).find? fun q => (loop.variableNamed? q.name).isNone

/-- The links between a loop and a pipeline: the loop variables with the lambda parameters, then the
two statements. -/
def loopLinks (side : LoopSide) (loop pipeline : Fragment) (p : FilePair) : List Link :=
  let matched := (namesakes loop pipeline).flatMap fun x =>
    let pair := orient side x.1 x.2
    (p.resolve? pair.1.location pair.2.location).toList.flatMap fun l =>
      Alignment.simpleLinks config p.source p.target false l.1 l.2
  let statements := orient side loop pipeline
  matched ++ (p.resolve? statements.1.location statements.2.location).toList

/-- Link a loop with the pipeline that replaces it or is replaced by it. The pipeline has to be a
single fragment, and one of the others an enhanced for statement. If the loop came first, every
lambda parameter has to be named like one of its variables. -/
def loopStep (name : String) (side : LoopSide) (old new : List Fragment) :
    Except Warning Contribution :=
  let loops := (orient side old new).1
  let version := (orient side v.before v.after).1
  match (orient side old new).2 with
  | [pipeline] =>
    match loops.find? (isEnhancedFor version) with
    | none => .error (.missingEnhancedFor name)
    | some loop =>
      match side, strayParameter? loop pipeline with
      | .before, some q => .error (.unknownLoopVariable name q.name)
      | _, _ =>
        let statements := orient side loop pipeline
        (v.filePairOf statements.1.location statements.2.location).map fun p =>
          ⟨p, loopLinks config side loop pipeline p, []⟩
  | pipelines => .error (.expectedSingleFragment name pipelines.length)

/-! ### All refactorings -/

/-- What is to be done for a refactoring, in order. A variable that was extracted adds nothing to
the statements that are linked already. -/
def steps (r : Refactoring) : List (Except Warning Contribution) :=
  match r with
  | relocateOperation _ old new body =>
    [(v.filePairOf old.location new.location).map fun p => ⟨p, p.operationFindings config body⟩]
  | relocateAttribute _ old new | renameAttribute old new => [fieldStep config v old new]
  | shareBody _ body =>
    [(v.filePairOf body.before.location body.after.location).map fun p =>
      ⟨p, p.bodyFindings config body⟩]
  | mergeVariables old new _ => old.map fun x => variableStep v x new
  | splitVariable old new _ => new.map fun y => variableStep v old y
  | splitConditional old new _ => new.map fun y => compositeStep config v old y
  | mergeFragments _ old new _ => old.map fun x => compositeStep config v x new
  | replaceLoop side old new _ => [loopStep config v r.name side old new]
  | extractVariable _ _ => []

/-- Handle a refactoring. -/
def attempt (r : Refactoring) : Attempt :=
  .ofSteps (r.steps config v)

end Refactoring

end Counterpart
