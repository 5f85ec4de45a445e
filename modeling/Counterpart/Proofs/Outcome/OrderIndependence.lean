import Counterpart.Proofs.Outcome.Slot
import Counterpart.Proofs.Tree.Finished

/-!
# Order does not matter

The relations of a class pair do not depend on the order in which its parts come. In every list of it,
wherever that is, the parts add up independently of each other; and which fragments are marked as
expressions, and hence put off, has no influence either (`relation_order_independent`).
-/

namespace Counterpart

/-! ### Marks -/

def Fragment.unmarked (f : Fragment) : Fragment :=
  { f with isExpression := false }

def FragmentPair.unmarked (f : FragmentPair) : FragmentPair :=
  { f with before := f.before.unmarked, after := f.after.unmarked }

mutual

/-- Two bodies in which no fragment is marked as an expression. -/
def BodyPair.unmarked : BodyPair → BodyPair
  | { before, after, signature, matchedVariables, fragments, anonymousClasses } =>
    { before, after, signature, matchedVariables
      fragments := fragments.map FragmentPair.unmarked
      anonymousClasses := unmarkedAnonymous anonymousClasses }

def unmarkedAnonymous : List AnonymousClassPair → List AnonymousClassPair
  | [] => []
  | { attributes, members } :: rest =>
    { attributes, members := unmarkedMembers members } :: unmarkedAnonymous rest

def unmarkedMembers : List BodyPair → List BodyPair
  | [] => []
  | b :: rest => b.unmarked :: unmarkedMembers rest

end

def AnonymousClassPair.unmarked (a : AnonymousClassPair) : AnonymousClassPair :=
  { a with members := unmarkedMembers a.members }

def EnumConstantPair.unmarked (e : EnumConstantPair) : EnumConstantPair :=
  { e with classBody := e.classBody.map AnonymousClassPair.unmarked }

def Refactoring.unmarked : Refactoring → Refactoring
  | relocateOperation how old new body => relocateOperation how old new body.unmarked
  | shareBody how body => shareBody how body.unmarked
  | splitConditional old new classes =>
    splitConditional old.unmarked (new.map Fragment.unmarked) classes
  | mergeFragments what old new classes =>
    mergeFragments what (old.map Fragment.unmarked) new.unmarked classes
  | replaceLoop side old new classes =>
    replaceLoop side (old.map Fragment.unmarked) (new.map Fragment.unmarked) classes
  | r => r

/-- The class pair without any mark. -/
def ClassPair.unmarked (c : ClassPair) : ClassPair :=
  { c with
    changedConstants := c.changedConstants.map EnumConstantPair.unmarked
    bodies := unmarkedMembers c.bodies
    refactorings := c.refactorings.map Refactoring.unmarked }

namespace FilePair

variable {config : AlignmentConfig} {p : FilePair}

@[simp] theorem declarationLinks_unmarked (b : BodyPair) :
    p.declarationLinks b.unmarked = p.declarationLinks b := by
  obtain ⟨before, after, signature, matched, fragments, anonymous⟩ := b
  rw [BodyPair.unmarked]
  rfl

mutual

/-- Marks decide when fragments are aligned, and not what this comes to. -/
theorem mem_settle_body_unmarked {l : Link} : ∀ b : BodyPair,
    l ∈ p.settle config (bodyFindings config p b.unmarked) ↔
      l ∈ p.settle config (bodyFindings config p b)
  | ⟨_, _, _, _, fragments, anonymousClasses⟩ => by
    rw [BodyPair.unmarked, mem_settle_body, mem_settle_body,
      mem_settle_anonymous_unmarked anonymousClasses]
    simp only [List.mem_map]
    -- What two fragments come to depends on their locations and on how they are to be aligned.
    refine or_congr_right ⟨?_, ?_⟩
    · rintro ⟨-, ⟨f, hf, rfl⟩, hl⟩
      exact ⟨f, hf, hl⟩
    · rintro ⟨f, hf, hl⟩
      exact ⟨f.unmarked, ⟨f, hf, rfl⟩, hl⟩

theorem mem_settle_anonymous_unmarked {l : Link} : ∀ as : List AnonymousClassPair,
    l ∈ p.settle config (anonymousFindings config p (unmarkedAnonymous as)) ↔
      l ∈ p.settle config (anonymousFindings config p as)
  | [] => by rw [unmarkedAnonymous]
  | ⟨attributes, members⟩ :: rest => by
    rw [unmarkedAnonymous, anonymousFindings, anonymousFindings, mem_settle_append,
      mem_settle_append, mem_settle_append, mem_settle_append, mem_settle_members_unmarked members,
      mem_settle_anonymous_unmarked rest]

theorem mem_settle_members_unmarked {l : Link} : ∀ bs : List BodyPair,
    l ∈ p.settle config (memberFindings config p (unmarkedMembers bs)) ↔
      l ∈ p.settle config (memberFindings config p bs)
  | [] => by rw [unmarkedMembers]
  | b :: rest => by
    rw [unmarkedMembers, memberFindings, memberFindings, mem_settle_append, mem_settle_append,
      mem_settle_append, mem_settle_append, declarationLinks_unmarked, mem_settle_body_unmarked b,
      mem_settle_members_unmarked rest]

end

theorem mem_settle_class_unmarked {c : ClassPair} {l : Link} :
    l ∈ p.settle config (p.classFindings config c.unmarked) ↔
      l ∈ p.settle config (p.classFindings config c) := by
  have hconstants : (∃ e ∈ c.unmarked.changedConstants, ∃ a ∈ e.classBody.toList,
        l ∈ p.settle config (memberFindings config p a.members)) ↔
      ∃ e ∈ c.changedConstants, ∃ a ∈ e.classBody.toList,
        l ∈ p.settle config (memberFindings config p a.members) := by
    constructor
    · rintro ⟨_, he, _, ha, hl⟩
      obtain ⟨e, hmem, rfl⟩ := List.mem_map.1 he
      obtain ⟨a, hbody, rfl⟩ := Option.map_eq_some_iff.1 (Option.mem_toList.1 ha)
      exact ⟨e, hmem, a, Option.mem_toList.2 hbody, (mem_settle_members_unmarked a.members).1 hl⟩
    · rintro ⟨e, he, a, ha, hl⟩
      refine ⟨e.unmarked, List.mem_map_of_mem he, a.unmarked, ?_,
        (mem_settle_members_unmarked a.members).2 hl⟩
      exact Option.mem_toList.2 (Option.map_eq_some_iff.2 ⟨a, Option.mem_toList.1 ha, rfl⟩)
  have hbodies : (∃ b ∈ c.unmarked.bodies,
        l ∈ p.declarationLinks b ∨ l ∈ p.settle config (bodyFindings config p b)) ↔
      ∃ b ∈ c.bodies,
        l ∈ p.declarationLinks b ∨ l ∈ p.settle config (bodyFindings config p b) := by
    rw [← mem_settle_members, ← mem_settle_members]
    exact mem_settle_members_unmarked c.bodies
  rw [mem_classFindings, mem_classFindings, hconstants, hbodies]
  rfl

end FilePair

namespace Refactoring

variable {config : AlignmentConfig} {v : Versions} {source target : String} {l : Link}

theorem find?_isEnhancedFor_unmarked (version : Version) (fs : List Fragment) :
    (fs.map Fragment.unmarked).find? (isEnhancedFor version) =
      (fs.find? (isEnhancedFor version)).map Fragment.unmarked := by
  rw [List.find?_map]
  rfl

theorem orient_map {α β : Type} (f : α → β) (side : LoopSide) (xs ys : List α) :
    orient side (xs.map f) (ys.map f) =
      ((orient side xs ys).1.map f, (orient side xs ys).2.map f) := by
  cases side <;> rfl

theorem loopStep_unmarked (name : String) (side : LoopSide) (old new : List Fragment) :
    loopStep config v name side (old.map Fragment.unmarked) (new.map Fragment.unmarked) =
      loopStep config v name side old new := by
  unfold loopStep
  -- Which side holds the loop is put aside: both lists lose their marks.
  rw [orient_map]
  obtain ⟨loops, pipelines⟩ := orient side old new
  match pipelines with
  | [] => rfl
  | [pipeline] =>
    simp only [find?_isEnhancedFor_unmarked, List.map_cons, List.map_nil]
    cases loops.find? (isEnhancedFor (orient side v.before v.after).1) with
    | none => rfl
    | some loop => cases side <;> rfl
  | x :: y :: rest => simp only [List.map_cons, List.length_cons, List.length_map]

/-- Except for bodies, marks are not even looked at. -/
theorem steps_unmarked_or (config : AlignmentConfig) (v : Versions) (r : Refactoring) :
    r.unmarked.steps config v = r.steps config v ∨
      (∃ how old new body, r = relocateOperation how old new body) ∨
      ∃ how body, r = shareBody how body := by
  cases r with
  | relocateOperation how old new body => exact .inr (.inl ⟨how, old, new, body, rfl⟩)
  | shareBody how body => exact .inr (.inr ⟨how, body, rfl⟩)
  | splitConditional old new classes =>
    left
    show (new.map _).map _ = new.map _
    rw [List.map_map]
    rfl
  | mergeFragments what old new classes =>
    left
    show (old.map _).map _ = old.map _
    rw [List.map_map]
    rfl
  | replaceLoop side old new classes =>
    left
    show [_] = [_]
    rw [loopStep_unmarked]
    cases side <;> rfl
  | relocateAttribute how old new => exact .inl rfl
  | renameAttribute old new => exact .inl rfl
  | mergeVariables old new classes => exact .inl rfl
  | splitVariable old new classes => exact .inl rfl
  | extractVariable new classes => exact .inl rfl

theorem containers_unmarked (b : BodyPair) :
    b.unmarked.before = b.before ∧ b.unmarked.after = b.after := by
  obtain ⟨before, after, signature, matched, fragments, anonymous⟩ := b
  rw [BodyPair.unmarked]
  exact ⟨rfl, rfl⟩

theorem adds_unmarked {r : Refactoring} :
    r.unmarked.Adds config v source target l ↔ r.Adds config v source target l := by
  obtain hsteps | ⟨how, old, new, body, rfl⟩ | ⟨how, body, rfl⟩ :=
    steps_unmarked_or config v r
  · rw [Adds, Adds, attempt, attempt, hsteps]
  · rw [unmarked, adds_iff_of_step rfl, adds_iff_of_step rfl]
    simp only [FilePair.mem_settle_operation, FilePair.declarationLinks_unmarked,
      FilePair.mem_settle_body_unmarked]
  · rw [unmarked, adds_iff_of_step rfl, adds_iff_of_step rfl, (containers_unmarked body).1,
      (containers_unmarked body).2]
    simp only [FilePair.mem_settle_body_unmarked]

theorem warning_unmarked (r : Refactoring) :
    (r.unmarked.attempt config v).warning = (r.attempt config v).warning := by
  obtain hsteps | ⟨how, old, new, body, rfl⟩ | ⟨how, body, rfl⟩ :=
    steps_unmarked_or config v r
  · rw [attempt, attempt, hsteps]
  · rw [unmarked, warning_eq_of_step rfl, warning_eq_of_step rfl]
  · rw [unmarked, warning_eq_of_step rfl, warning_eq_of_step rfl, (containers_unmarked body).1,
      (containers_unmarked body).2]

end Refactoring

/-! ### Outcomes -/

namespace Outcome

variable {config : AlignmentConfig} {v : Versions} {source target : String} {l : Link}

theorem relates_unmarked {c : ClassPair} :
    (ofClassPair config v c.unmarked).Relates source target l ↔
      (ofClassPair config v c).Relates source target l := by
  rw [relates_ofClassPair, relates_ofClassPair]
  refine exists_congr fun p => and_congr_right fun _ => or_congr ?_ ?_
  · rw [FilePair.mem_settle_class_unmarked]
  · simp only [ClassPair.unmarked, List.mem_map]
    constructor
    · rintro ⟨_, ⟨r, hr, rfl⟩, hadd⟩
      exact ⟨r, hr, Refactoring.adds_unmarked.1 hadd⟩
    · rintro ⟨r, hr, hadd⟩
      exact ⟨r.unmarked, ⟨r, hr, rfl⟩, Refactoring.adds_unmarked.2 hadd⟩

theorem constantWarnings_unmarked (c : ClassPair) :
    constantWarnings c.unmarked = constantWarnings c := by
  have hbody : ((fun e : EnumConstantPair => e.classBody.isNone) ∘ EnumConstantPair.unmarked) =
      fun e => e.classBody.isNone := by
    funext e
    exact Option.isNone_map
  unfold constantWarnings ClassPair.unmarked
  rw [List.filter_map, List.map_map, hbody]
  rfl

theorem warnings_unmarked (c : ClassPair) :
    (ofClassPair config v c.unmarked).warnings = (ofClassPair config v c).warnings := by
  have hrefactorings :
      (c.unmarked.refactorings.filterMap fun r => (r.attempt config v).warning) =
        c.refactorings.filterMap fun r => (r.attempt config v).warning := by
    show (c.refactorings.map Refactoring.unmarked).filterMap _ = _
    rw [List.filterMap_map]
    congr 1
    funext r
    exact Refactoring.warning_unmarked r
  rw [warnings_ofClassPair, warnings_ofClassPair, constantWarnings_unmarked, hrefactorings]
  rfl

/-- The parts of a class pair are reconciled independently of each other. A list that is put anywhere
into it has the relations of its parts taken together, so that neither order nor repetition changes
them; reordering it reorders the warnings at most. Marking other fragments as expressions changes
neither relations nor warnings. -/
theorem relation_order_independent (config : AlignmentConfig) (v : Versions) :
    (∀ (α : Type) (c : List α → ClassPair), ClassPair.Slot c →
      (∀ xs ys source target l, (ofClassPair config v (c (xs ++ ys))).Relates source target l ↔
        (ofClassPair config v (c xs)).Relates source target l ∨
          (ofClassPair config v (c ys)).Relates source target l) ∧
      (∀ xs ys : List α, (∀ x, x ∈ xs ↔ x ∈ ys) → ∀ source target l,
        (ofClassPair config v (c xs)).Relates source target l ↔
          (ofClassPair config v (c ys)).Relates source target l) ∧
      (∀ xs ys : List α, xs.Perm ys →
        (ofClassPair config v (c xs)).warnings.Perm (ofClassPair config v (c ys)).warnings)) ∧
    (∀ c d : ClassPair, c.unmarked = d.unmarked →
      (∀ source target l, (ofClassPair config v c).Relates source target l ↔
        (ofClassPair config v d).Relates source target l) ∧
      (ofClassPair config v c).warnings = (ofClassPair config v d).warnings) := by
  refine ⟨?_, ?_⟩
  · intro α c hc
    refine ⟨fun xs ys source target l => additive_relates hc xs ys, ?_, fun xs ys => warnings_perm hc⟩
    intro xs ys hmem source target l
    exact (additive_relates hc).congr_mem hmem
  · intro c d h
    refine ⟨fun source target l => ?_, ?_⟩
    · rw [← relates_unmarked, h, relates_unmarked]
    · rw [← warnings_unmarked, h, warnings_unmarked]

/-- One file in which a name was changed. -/
def changedName : Versions where
  before := .ofList [("A", .fileOf "x")]
  after := .ofList [("A", .fileOf "y")]

/-- That name, or the file around it, as a fragment. -/
def fragmentAt (span : Span) (isExpression : Bool) : FragmentPair :=
  let fragment : Fragment := { location := { file := "A", span }, isExpression }
  { before := fragment, after := fragment }

/-- A class with the fragments in a method of an anonymous class. -/
def withNested (fs : List FragmentPair) : ClassPair :=
  { before := { location := { file := "A" } }
    after := { location := { file := "A" } }
    bodies := [{ anonymousClasses := [{ members := [{ fragments := fs }] }] }] }

theorem withNested_independent :
    (ofClassPair {} changedName (withNested [fragmentAt ⟨1, 8⟩ true])).Relates "A" "A" (1, 1) ∧
    (∀ source target l,
      (ofClassPair {} changedName
        (withNested ([fragmentAt ⟨1, 8⟩ true] ++ [fragmentAt ⟨0, 9⟩ false]))).Relates source target l ↔
      (ofClassPair {} changedName (withNested [fragmentAt ⟨1, 8⟩ true])).Relates source target l ∨
        (ofClassPair {} changedName (withNested [fragmentAt ⟨0, 9⟩ false])).Relates source target l) ∧
    (∀ source target l,
      (ofClassPair {} changedName
        (withNested [fragmentAt ⟨1, 8⟩ true, fragmentAt ⟨0, 9⟩ false])).Relates source target l ↔
      (ofClassPair {} changedName
        (withNested [fragmentAt ⟨0, 9⟩ false, fragmentAt ⟨1, 8⟩ true])).Relates source target l) ∧
    (ofClassPair {} changedName
        (withNested [fragmentAt ⟨1, 8⟩ true, fragmentAt ⟨0, 9⟩ false])).warnings.Perm
      (ofClassPair {} changedName
        (withNested [fragmentAt ⟨0, 9⟩ false, fragmentAt ⟨1, 8⟩ true])).warnings ∧
    (∀ source target l,
      (ofClassPair {} changedName (withNested [fragmentAt ⟨1, 8⟩ true])).Relates source target l ↔
      (ofClassPair {} changedName (withNested [fragmentAt ⟨1, 8⟩ false])).Relates source target l) := by
  obtain ⟨hlists, hmarks⟩ := relation_order_independent {} changedName
  have hslot : ClassPair.Slot withNested :=
    .body { before := { location := { file := "A" } }, after := { location := { file := "A" } } } [] []
      (.anonymousClass {} [] [] (.member {} [] [] (.fragments {})))
  obtain ⟨hunion, hmembers, hwarnings⟩ := hlists FragmentPair withNested hslot
  refine ⟨by decide +kernel, hunion _ _, hmembers _ _ ?_, hwarnings _ _ (.swap _ _ []),
    (hmarks _ _ rfl).1⟩
  intro x
  simp only [List.mem_cons, List.not_mem_nil, or_false]
  exact or_comm

end Outcome

end Counterpart
