import Counterpart.Proofs.Outcome.Skipping
import Counterpart.Proofs.Outcome.Slot
import Mathlib.Data.List.Forall2
import Mathlib.Data.List.ReduceOption

/-!
# When there is a warning

What a refactoring warns of is a matter of its own data and of the files that have trees. The rules are
those of `Raises`: the places that it connects are looked up in order and the first one without a tree is
reported, and a rewritten loop is checked in four ways before its places are looked up (`LoopRaises`). They
are all there is (`warning_eq_some_iff`), so the warnings of a class pair can be told from the rules alone
(`warnings_exact`): whatever else cannot be found is passed over in silence.
-/

namespace Counterpart

/-- The first member of a list with a property. -/
def IsFirst {α : Type} (P : α → Prop) (xs : List α) (x : α) : Prop :=
  P x ∧ ∃ earlier later, xs = earlier ++ x :: later ∧ ∀ y ∈ earlier, ¬ P y

theorem find?_eq_some_iff_isFirst {α : Type} {p : α → Bool} {P : α → Prop} {xs : List α} {x : α}
    (hp : ∀ y, p y = true ↔ P y) : xs.find? p = some x ↔ IsFirst P xs x := by
  rw [List.find?_eq_some_iff_append]
  simp only [IsFirst, ← hp, Bool.not_eq_true, Bool.not_eq_true']

theorem find?_eq_none_iff_forall {α : Type} {p : α → Bool} {P : α → Prop} {xs : List α}
    (hp : ∀ y, p y = true ↔ P y) : xs.find? p = none ↔ ∀ x ∈ xs, ¬ P x := by
  rw [List.find?_eq_none]
  simp only [hp]

/-! ### Missing trees -/

/-- The file of two that is reported to have no tree: the old one, or else the new one. -/
inductive Versions.Lacks (v : Versions) (sourcePath targetPath : String) : String → Prop
  | source (h : v.before.get? sourcePath = none) : Lacks v sourcePath targetPath sourcePath
  | target (h : (v.before.get? sourcePath).isSome = true) (h' : v.after.get? targetPath = none) :
    Lacks v sourcePath targetPath targetPath

theorem Versions.filePair_eq_error_iff {v : Versions} {sourcePath targetPath : String} {w : Warning} :
    v.filePair sourcePath targetPath = .error w ↔
      ∃ path, v.Lacks sourcePath targetPath path ∧ w = .missingTree path := by
  unfold filePair
  constructor
  · intro h
    split at h
    · next hsource =>
      cases h
      exact ⟨sourcePath, .source hsource, rfl⟩
    · next hsource =>
      split at h
      · next htarget =>
        cases h
        exact ⟨targetPath, .target (by rw [hsource]; rfl) htarget, rfl⟩
      · cases h
  · rintro ⟨path, hlacks, rfl⟩
    cases hlacks with
    | source h => rw [h]
    | target h h' =>
      obtain ⟨t, ht⟩ := Option.isSome_iff_exists.1 h
      rw [ht, h']

namespace Refactoring

variable {config : AlignmentConfig} {v : Versions}

/-- The places that a refactoring connects, in order. Those of a loop and a pipeline are not told from the
refactoring alone, and a variable that was extracted connects none. -/
def endpoints : Refactoring → List (Location × Location)
  | relocateOperation _ old new _ => [(old.location, new.location)]
  | relocateAttribute _ old new | renameAttribute old new => [(old.location, new.location)]
  | shareBody _ body => [(body.before.location, body.after.location)]
  | r => r.places

/-! ### The rules -/

/-- A fragment is an enhanced for statement in a version. -/
def IsLoopIn (version : Version) (f : Fragment) : Prop :=
  ∃ t n, version.get? f.location.file = some t ∧ f.location.resolve t = some n ∧
    t.kind n = Kind.enhancedForStatement

/-- A parameter has the name of a variable of the loop. -/
def IsLoopVariable (loop : Fragment) (q : Variable) : Prop :=
  ∃ x ∈ loop.declared, x.name = q.name

/-- The parameters of the lambdas of a pipeline. -/
def lambdaParameters (pipeline : Fragment) : List Variable :=
  pipeline.lambdas.flatMap Lambda.parameters

/-- What a rewritten loop warns of. The rules are tried in this order. -/
inductive LoopRaises (v : Versions) (name : String) (side : LoopSide) (old new : List Fragment) :
    Warning → Prop
  | notSingle (h : (orient side old new).2.length ≠ 1) :
    LoopRaises v name side old new (.expectedSingleFragment name (orient side old new).2.length)
  | noLoop (pipeline : Fragment) (hpipeline : (orient side old new).2 = [pipeline])
    (h : ∀ f ∈ (orient side old new).1, ¬ IsLoopIn (orient side v.before v.after).1 f) :
    LoopRaises v name side old new (.missingEnhancedFor name)
  | strayParameter (pipeline loop : Fragment) (q : Variable)
    (hpipeline : (orient side old new).2 = [pipeline])
    (hloop : IsFirst (IsLoopIn (orient side v.before v.after).1) (orient side old new).1 loop)
    (hside : side = .before)
    (h : IsFirst (fun q => ¬ IsLoopVariable loop q) (lambdaParameters pipeline) q) :
    LoopRaises v name side old new (.unknownLoopVariable name q.name)
  | noTree (pipeline loop : Fragment) (path : String) (hpipeline : (orient side old new).2 = [pipeline])
    (hloop : IsFirst (IsLoopIn (orient side v.before v.after).1) (orient side old new).1 loop)
    (hnames : side = .before → ∀ q ∈ lambdaParameters pipeline, IsLoopVariable loop q)
    (h : v.Lacks (orient side loop pipeline).1.location.file (orient side loop pipeline).2.location.file
      path) :
    LoopRaises v name side old new (.missingTree path)

/-- What a refactoring warns of. -/
inductive Raises (v : Versions) : Refactoring → Warning → Prop
  | place (r : Refactoring) (x : Location × Location) (path : String)
    (hfirst : IsFirst (fun x => ¬ v.hasTrees x = true) r.endpoints x)
    (h : v.Lacks x.1.file x.2.file path) : Raises v r (.missingTree path)
  | loop (side : LoopSide) (old new : List Fragment) (classes : InvolvedClasses) (w : Warning)
    (h : LoopRaises v (replaceLoop side old new classes).name side old new w) :
    Raises v (replaceLoop side old new classes) w

/-! ### Loops -/

theorem isEnhancedFor_iff {version : Version} {f : Fragment} :
    isEnhancedFor version f = true ↔ IsLoopIn version f := by
  simp only [isEnhancedFor, IsLoopIn, Option.any_eq_true, beq_iff_eq]
  constructor
  · rintro ⟨t, ht, n, hn, hkind⟩
    exact ⟨t, n, ht, hn, hkind⟩
  · rintro ⟨t, n, ht, hn, hkind⟩
    exact ⟨t, ht, n, hn, hkind⟩

theorem variableNamed?_isNone_iff {loop : Fragment} {q : Variable} :
    (loop.variableNamed? q.name).isNone = true ↔ ¬ IsLoopVariable loop q := by
  rw [Option.isNone_iff_eq_none, Fragment.variableNamed?, List.find?_eq_none]
  simp [IsLoopVariable]

theorem strayParameter?_eq_some_iff {loop pipeline : Fragment} {q : Variable} :
    strayParameter? loop pipeline = some q ↔
      IsFirst (fun q => ¬ IsLoopVariable loop q) (lambdaParameters pipeline) q :=
  find?_eq_some_iff_isFirst fun _ => variableNamed?_isNone_iff

theorem strayParameter?_eq_none_iff {loop pipeline : Fragment} :
    strayParameter? loop pipeline = none ↔ ∀ q ∈ lambdaParameters pipeline, IsLoopVariable loop q := by
  refine (find?_eq_none_iff_forall fun _ => variableNamed?_isNone_iff).trans ?_
  simp only [Classical.not_not]
  rfl

theorem map_eq_error_iff {α β : Type} {x : Except Warning α} {f : α → β} {w : Warning} :
    x.map f = .error w ↔ x = .error w := by
  cases x <;> simp [Except.map]

theorem find?_isEnhancedFor_eq_some_iff {version : Version} {loops : List Fragment} {loop : Fragment} :
    loops.find? (isEnhancedFor version) = some loop ↔ IsFirst (IsLoopIn version) loops loop :=
  find?_eq_some_iff_isFirst fun _ => isEnhancedFor_iff

theorem find?_isEnhancedFor_eq_none_iff {version : Version} {loops : List Fragment} :
    loops.find? (isEnhancedFor version) = none ↔ ∀ f ∈ loops, ¬ IsLoopIn version f :=
  find?_eq_none_iff_forall fun _ => isEnhancedFor_iff

section Loop

variable {name : String} {side : LoopSide} {old new : List Fragment} {w : Warning}

/-- Whatever a rewritten loop warns of is called for by a rule. -/
theorem loopRaises_of_loopStep (h : loopStep config v name side old new = .error w) :
    LoopRaises v name side old new w := by
  unfold loopStep at h
  dsimp only at h
  split at h
  · next pipeline hpipeline =>
    split at h
    · next hloops =>
      cases h
      exact .noLoop pipeline hpipeline (find?_isEnhancedFor_eq_none_iff.1 hloops)
    · next loop hfind =>
      have hloop := find?_isEnhancedFor_eq_some_iff.1 hfind
      split at h
      · next q hstray =>
        cases h
        exact .strayParameter pipeline loop q hpipeline hloop rfl (strayParameter?_eq_some_iff.1 hstray)
      · next hknown =>
        obtain ⟨path, hlacks, rfl⟩ := Versions.filePair_eq_error_iff.1 (map_eq_error_iff.1 h)
        refine .noTree pipeline loop path hpipeline hloop (fun hside => ?_) hlacks
        refine strayParameter?_eq_none_iff.1 (Option.eq_none_iff_forall_ne_some.2 fun q hstray => ?_)
        exact hknown q hside hstray
  · next hmany =>
    cases h
    refine .notSingle fun hone => ?_
    obtain ⟨pipeline, hpipeline⟩ := List.length_eq_one_iff.1 hone
    exact hmany pipeline hpipeline

/-- A rule that applies comes before those that would say something else. -/
theorem loopStep_of_loopRaises (h : LoopRaises v name side old new w) :
    loopStep config v name side old new = .error w := by
  unfold loopStep
  dsimp only
  cases h with
  | notSingle h =>
    split
    · next hpipeline => exact absurd (by rw [hpipeline]; rfl) h
    · rfl
  | noLoop pipeline hpipeline h => rw [hpipeline, find?_isEnhancedFor_eq_none_iff.2 h]
  | strayParameter pipeline loop q hpipeline hloop hside h =>
    subst hside
    rw [hpipeline, find?_isEnhancedFor_eq_some_iff.2 hloop]
    dsimp only
    rw [strayParameter?_eq_some_iff.2 h]
  | noTree pipeline loop path hpipeline hloop hnames h =>
    rw [hpipeline, find?_isEnhancedFor_eq_some_iff.2 hloop]
    dsimp only
    split
    · next q hstray =>
      rw [strayParameter?_eq_none_iff.2 (hnames rfl)] at hstray
      cases hstray
    · exact map_eq_error_iff.2 (Versions.filePair_eq_error_iff.2 ⟨path, h, rfl⟩)

end Loop

/-! ### Places -/

/-- What looking up two places gives rise to. -/
def complaint? (v : Versions) (x : Location × Location) : Option Warning :=
  match v.filePairOf x.1 x.2 with
  | .error w => some w
  | .ok _ => none

theorem complaint?_eq_some_iff {x : Location × Location} {w : Warning} :
    complaint? v x = some w ↔ ∃ path, v.Lacks x.1.file x.2.file path ∧ w = .missingTree path := by
  rw [← Versions.filePair_eq_error_iff]
  unfold complaint? Versions.filePairOf
  cases v.filePair x.1.file x.2.file <;> simp

theorem complaint?_eq_none_iff {x : Location × Location} :
    complaint? v x = none ↔ v.hasTrees x = true := by
  rw [← v.isOk_filePairOf x.1 x.2]
  unfold complaint?
  cases v.filePairOf x.1 x.2 <;> simp [Except.isOk, Except.toBool]

/-- Steps that only look up places warn of the first one that has no trees. -/
theorem warning_ofSteps_places {α : Type} (g : α → Location × Location)
    (f : α → FilePair → Contribution) (xs : List α) :
    (Attempt.ofSteps (xs.map fun x => (v.filePairOf (g x).1 (g x).2).map (f x))).warning =
      (xs.map g).findSome? (complaint? v) := by
  induction xs with
  | nil => rfl
  | cons x xs ih =>
    rw [List.map_cons, List.map_cons, List.findSome?_cons, complaint?]
    cases v.filePairOf (g x).1 (g x).2 with
    | error w => rfl
    | ok p => exact ih

theorem warning_eq_of_place {r : Refactoring} {x y : Location} {f : FilePair → Findings}
    (h : r.steps config v = [(v.filePairOf x y).map fun p => ⟨p, f p⟩]) :
    (r.attempt config v).warning = [(x, y)].findSome? (complaint? v) := by
  rw [warning_eq_of_step h, List.findSome?_cons, complaint?]
  cases v.filePairOf x y <;> rfl

/-- Whether a refactoring is about a loop and a pipeline. -/
def isLoopRewrite : Refactoring → Bool
  | replaceLoop .. => true
  | _ => false

theorem warning_eq_findSome? {r : Refactoring} (h : r.isLoopRewrite = false) :
    (r.attempt config v).warning = r.endpoints.findSome? (complaint? v) := by
  cases r with
  | relocateOperation how old new body => exact warning_eq_of_place rfl
  | relocateAttribute how old new => exact warning_eq_of_place rfl
  | shareBody how body => exact warning_eq_of_place rfl
  | renameAttribute old new => exact warning_eq_of_place rfl
  | mergeVariables old new classes =>
    exact warning_ofSteps_places (fun x => (x.location, new.location)) _ old
  | splitVariable old new classes =>
    exact warning_ofSteps_places (fun y => (old.location, y.location)) _ new
  | splitConditional old new classes =>
    exact warning_ofSteps_places (fun y => (old.location, y.location)) _ new
  | mergeFragments what old new classes =>
    exact warning_ofSteps_places (fun x => (x.location, new.location)) _ old
  | replaceLoop side old new classes => cases h
  | extractVariable new classes => rfl

theorem findSome?_complaint?_eq_some_iff {xs : List (Location × Location)} {w : Warning} :
    xs.findSome? (complaint? v) = some w ↔
      ∃ x path, IsFirst (fun x => ¬ v.hasTrees x = true) xs x ∧ v.Lacks x.1.file x.2.file path ∧
        w = .missingTree path := by
  rw [List.findSome?_eq_some_iff]
  constructor
  · rintro ⟨earlier, x, later, hsplit, hx, hearlier⟩
    obtain ⟨path, hlacks, rfl⟩ := complaint?_eq_some_iff.1 hx
    refine ⟨x, path, ⟨fun htrees => ?_, earlier, later, hsplit, fun y hy hnot => ?_⟩, hlacks, rfl⟩
    · rw [complaint?_eq_none_iff.2 htrees] at hx
      cases hx
    · exact hnot (complaint?_eq_none_iff.1 (hearlier y hy))
  · rintro ⟨x, path, ⟨-, earlier, later, hsplit, hearlier⟩, hlacks, rfl⟩
    refine ⟨earlier, x, later, hsplit, complaint?_eq_some_iff.2 ⟨path, hlacks, rfl⟩, fun y hy => ?_⟩
    exact complaint?_eq_none_iff.2 (Classical.not_not.1 (hearlier y hy))

/-! ### All refactorings -/

theorem warning_ofSteps_singleton {s : Except Warning Contribution} {w : Warning} :
    (Attempt.ofSteps [s]).warning = some w ↔ s = .error w := by
  cases s <;> simp [Attempt.ofSteps]

/-- A refactoring warns of what the rules call for, and of nothing else. -/
theorem warning_eq_some_iff {r : Refactoring} {w : Warning} :
    (r.attempt config v).warning = some w ↔ r.Raises v w := by
  cases hloop : r.isLoopRewrite with
  | true =>
    cases r with
    | replaceLoop side old new classes =>
      refine warning_ofSteps_singleton.trans ⟨fun h => ?_, fun h => ?_⟩
      · exact .loop side old new classes w (loopRaises_of_loopStep h)
      · cases h with
        | place _ x path hfirst _ =>
          obtain ⟨-, earlier, later, hsplit, -⟩ := hfirst
          exact absurd hsplit.symm (by simp [endpoints, places])
        | loop _ _ _ _ _ h => exact loopStep_of_loopRaises h
    | _ => cases hloop
  | false =>
    rw [warning_eq_findSome? hloop, findSome?_complaint?_eq_some_iff]
    constructor
    · rintro ⟨x, path, hfirst, hlacks, rfl⟩
      exact .place r x path hfirst hlacks
    · intro h
      cases h with
      | place _ x path hfirst hlacks => exact ⟨x, path, hfirst, hlacks, rfl⟩
      | loop side old new classes w h => cases hloop

end Refactoring

/-! ### Class pairs -/

namespace Outcome

/-- The warnings for two versions of a class are those that the rules call for. Without a tree for one of
its two files there is only that to say, of the old file first. Otherwise there is one warning for every changed
enum constant without a class body, and then at most one for every refactoring, in the order of these lists. -/
theorem warnings_exact (config : AlignmentConfig) (v : Versions) (c : ClassPair) :
    (v.before.get? c.before.sourceFile = none →
      (ofClassPair config v c).warnings = [.missingTree c.before.sourceFile]) ∧
    ((v.before.get? c.before.sourceFile).isSome = true → v.after.get? c.after.sourceFile = none →
      (ofClassPair config v c).warnings = [.missingTree c.after.sourceFile]) ∧
    ((v.before.get? c.before.sourceFile).isSome = true → (v.after.get? c.after.sourceFile).isSome = true →
      ∃ own : List (Option Warning),
        List.Forall₂ (fun r raised => ∀ w, raised = some w ↔ r.Raises v w) c.refactorings own ∧
        (ofClassPair config v c).warnings =
          ((c.changedConstants.filter fun e => e.classBody.isNone).map fun e => .missingClassBody e.name) ++
            own.reduceOption) := by
  rw [warnings_ofClassPair]
  refine ⟨fun hbefore => ?_, fun hbefore hafter => ?_, fun hbefore hafter => ?_⟩
  · rw [Versions.filePair_eq_error_iff.2 ⟨_, .source hbefore, rfl⟩]
  · rw [Versions.filePair_eq_error_iff.2 ⟨_, .target hbefore hafter, rfl⟩]
  · cases hpair : v.filePair c.before.sourceFile c.after.sourceFile with
    | error w =>
      obtain ⟨path, hlacks, -⟩ := Versions.filePair_eq_error_iff.1 hpair
      cases hlacks with
      | source h => rw [h] at hbefore; cases hbefore
      | target _ h => rw [h] at hafter; cases hafter
    | ok p =>
      refine ⟨c.refactorings.map fun r => (r.attempt config v).warning, ?_, ?_⟩
      · rw [List.forall₂_map_right_iff]
        exact List.forall₂_same.2 fun r _ w => Refactoring.warning_eq_some_iff
      · rw [List.reduceOption, List.filterMap_map]
        rfl

/-- A loop that fills file `A` in both versions. -/
def oneLoop : Versions where
  before := .ofList [("A", (Tree.single ⟨Kind.enhancedForStatement, none⟩ ⟨0, 9⟩).finish)]
  after := .ofList [("A", (Tree.single ⟨Kind.enhancedForStatement, none⟩ ⟨0, 9⟩).finish)]

/-- The loop became the given fragments of a pipeline. -/
def loopBecame (pipeline : List Fragment) : Refactoring :=
  .replaceLoop .before [{ location := { file := "A", span := ⟨0, 9⟩ } }] pipeline {}

/-- A class with a changed constant and refactorings that give rise to all sorts of warnings, or to none. -/
def troubledClass : ClassPair where
  before := { location := { file := "A" } }
  after := { location := { file := "A" } }
  changedConstants := [{ name := "RED" }, { name := "BLUE", classBody := some default }]
  refactorings := [loopBecame [], .replaceLoop .after [{}] [] {},
    loopBecame [{ lambdas := [{ parameters := [{ name := "x" }] }] }],
    .extractVariable default {}, loopBecame [{ location := { file := "B" } }], mergedFrom ["A", "C"]]

/-- Every warning is there for a reason, and the extracted variable has none. -/
theorem troubledClass_warnings :
    (ofClassPair {} oneLoop troubledClass).warnings =
      [.missingClassBody "RED", .expectedSingleFragment "Replace Loop With Pipeline" 0,
        .missingEnhancedFor "Replace Pipeline With Loop",
        .unknownLoopVariable "Replace Loop With Pipeline" "x", .missingTree "B", .missingTree "C"] ∧
    (∃ own : List (Option Warning),
      List.Forall₂ (fun r raised => ∀ w, raised = some w ↔ r.Raises oneLoop w) troubledClass.refactorings
        own ∧
      (ofClassPair {} oneLoop troubledClass).warnings = [.missingClassBody "RED"] ++ own.reduceOption) ∧
    (ofClassPair {} oneLoop { troubledClass with after := {} }).warnings = [.missingTree ""] := by
  have hfile : (oneLoop.before.get? troubledClass.before.sourceFile).isSome = true := by decide +kernel
  refine ⟨by decide +kernel, ?_, ?_⟩
  · exact (warnings_exact {} oneLoop troubledClass).2.2 hfile (by decide +kernel)
  · exact (warnings_exact {} oneLoop { troubledClass with after := {} }).2.1 hfile rfl

end Outcome

end Counterpart
