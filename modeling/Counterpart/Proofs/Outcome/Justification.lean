import Counterpart.Proofs.FilePair.Coverage
import Counterpart.Proofs.Tree.Finished

/-!
# No link without a reason

Every link of an outcome is justified: it lies within two nodes that the model says belong together, in
the two files that it names; or it belongs to the frame of the class pair's own files, which are their
roots, package declarations and common imports. `links_justified` says so of class pairs and of lists
of refactorings.
-/

namespace Counterpart

variable {config : AlignmentConfig} {v : Versions} {source target : String} {l : Link}

/-! ### File pairs and steps -/

theorem Versions.filePair_eq_ok_iff {p : FilePair} :
    v.filePair source target = .ok p ↔ v.before.get? source = some p.source ∧
      v.after.get? target = some p.target ∧ p.sourcePath = source ∧ p.targetPath = target := by
  unfold filePair
  cases v.before.get? source with
  | none => simp
  | some t =>
    cases v.after.get? target with
    | none => simp
    | some u =>
      simp only [Except.ok.injEq, Option.some.injEq]
      constructor
      · rintro rfl
        exact ⟨rfl, rfl, rfl, rfl⟩
      · rintro ⟨rfl, rfl, rfl, rfl⟩
        rfl

theorem FilePair.Covered.justifies {p : FilePair} {xs : List Correspondence}
    (h : p.Covered xs l) (hp : v.filePair source target = .ok p) :
    ∃ x ∈ xs, x.Justifies v source target l := by
  obtain ⟨x, hx, hs, ht, e, ha, hb, hl⟩ := h
  obtain ⟨hbefore, hafter, rfl, rfl⟩ := Versions.filePair_eq_ok_iff.1 hp
  exact ⟨x, hx, hs, ht, p.source, p.target, e.1, e.2, hbefore, hafter, ha, hb, hl⟩

/-- A contribution of steps is that of some step that succeeded. -/
theorem Attempt.mem_steps_of_mem {steps : List (Except Warning Contribution)} {c : Contribution}
    (h : c ∈ (ofSteps steps).contributions) : .ok c ∈ steps := by
  induction steps with
  | nil => simp [ofSteps] at h
  | cons s steps ih =>
    cases s with
    | error w => simp [ofSteps] at h
    | ok d =>
      rcases List.mem_cons.1 h with rfl | h
      · exact List.mem_cons_self
      · exact List.mem_cons_of_mem _ (ih h)

namespace Refactoring

/-- A step that looks at one file pair. -/
theorem step_eq_ok {f : FilePair → Findings} {x y : Location} {c : Contribution}
    (h : (v.filePairOf x y).map (fun p => (⟨p, f p⟩ : Contribution)) = .ok c) :
    ∃ p, v.filePair x.file y.file = .ok p ∧ c = ⟨p, f p⟩ := by
  unfold Versions.filePairOf at h
  cases hp : v.filePair x.file y.file with
  | error w =>
    rw [hp] at h
    cases h
  | ok p =>
    rw [hp] at h
    exact ⟨p, rfl, (Except.ok.inj h).symm⟩

theorem variableLinks_covered {p : FilePair} {x y : Variable} (h : l ∈ variableLinks p x y) :
    p.Covered (Variable.correspondences x y) l := by
  unfold variableLinks at h
  rcases List.mem_append.1 h with h | h
  · obtain ⟨t, ht, hl⟩ := Option.bind_eq_some_iff.1 (Option.mem_toList.1 h)
    have hcov : p.Covered [{ before := t.1.location, after := t.2.location }] l :=
      FilePair.covered_of_resolve? hl (.refl _ _ l)
    exact (FilePair.Covered.map (Option.mem_toList.2 ht) hcov).tail
  · obtain ⟨e, he, hl⟩ := Option.bind_eq_some_iff.1 (Option.mem_toList.1 h)
    have hname : ∀ {t : Tree} {n c : Nat}, variableName? t n = some c → c ∈ t.children n := by
      intro t n c hc
      rcases Option.or_eq_some_iff.1 hc with hc | ⟨-, hc⟩
      · exact Tree.childOfKind?_mem hc
      · exact List.mem_of_getLast? hc
    exact FilePair.covered_of_resolve? he
      (Tree.linkWithin_of_both? hl (fun _ => hname) (fun _ => hname))

theorem orient_location {α : Type} (f : α → Location) (side : LoopSide) (x y : α) :
    f (orient side x y).1 = (orient side (f x) (f y)).1 ∧
      f (orient side x y).2 = (orient side (f x) (f y)).2 := by
  cases side <;> exact ⟨rfl, rfl⟩

theorem loopLinks_covered {side : LoopSide} {loop pipeline : Fragment} {p : FilePair}
    (h : l ∈ loopLinks config side loop pipeline p) :
    p.Covered ({ before := (orient side loop.location pipeline.location).1
                 after := (orient side loop.location pipeline.location).2 } ::
      (namesakes loop pipeline).map fun x =>
        { before := (orient side x.1.location x.2.location).1
          after := (orient side x.1.location x.2.location).2 }) l := by
  unfold loopLinks at h
  dsimp only at h
  rcases List.mem_append.1 h with h | h
  · obtain ⟨x, hx, hl⟩ := List.mem_flatMap.1 h
    rw [(orient_location Variable.location side x.1 x.2).1,
      (orient_location Variable.location side x.1 x.2).2] at hl
    exact (FilePair.Covered.map hx (FilePair.covered_of_mem_flatMap hl fun e =>
      Alignment.simpleLinks_within)).tail
  · rw [(orient_location Fragment.location side loop pipeline).1,
      (orient_location Fragment.location side loop pipeline).2, Option.mem_toList] at h
    exact FilePair.covered_of_resolve? h (.refl _ _ l)

/-! ### Refactorings -/

/-- A contribution made in a file pair that exists, within what is listed. -/
def Founded (config : AlignmentConfig) (v : Versions) (xs : List Correspondence)
    (c : Contribution) : Prop :=
  ∃ source target, v.filePair source target = .ok c.files ∧
    ∀ l ∈ c.files.settle config c.findings, c.files.Covered xs l

theorem Founded.mono {xs ys : List Correspondence} {c : Contribution} (h : Founded config v xs c)
    (hsub : xs ⊆ ys) : Founded config v ys c := by
  obtain ⟨source, target, hp, hcov⟩ := h
  exact ⟨source, target, hp, fun l hl => (hcov l hl).mono hsub⟩

theorem founded_of_step {f : FilePair → Findings} {x y : Location} {xs : List Correspondence}
    {c : Contribution} (h : (v.filePairOf x y).map (fun p => (⟨p, f p⟩ : Contribution)) = .ok c)
    (hf : ∀ (p : FilePair) (l : Link), l ∈ p.settle config (f p) → p.Covered xs l) :
    Founded config v xs c := by
  obtain ⟨p, hp, rfl⟩ := step_eq_ok h
  exact ⟨x.file, y.file, hp, hf p⟩

theorem variableStep_founded {x y : Variable} {c : Contribution} (h : variableStep v x y = .ok c) :
    Founded config v (Variable.correspondences x y) c := by
  refine founded_of_step h fun p l hl => ?_
  rw [FilePair.settle_immediate] at hl
  exact variableLinks_covered hl

theorem fieldStep_founded {x y : Attribute} {c : Contribution} (h : fieldStep config v x y = .ok c) :
    Founded config v (Attribute.correspondences x y) c := by
  refine founded_of_step h fun p l hl => ?_
  rw [FilePair.settle_immediate] at hl
  exact FilePair.fieldLinks_covered hl

theorem compositeStep_founded {x y : Fragment} {c : Contribution}
    (h : compositeStep config v x y = .ok c) :
    Founded config v [{ before := x.location, after := y.location }] c := by
  refine founded_of_step h fun p l hl => ?_
  rw [FilePair.settle_immediate] at hl
  exact FilePair.covered_of_mem_flatMap hl fun e => Alignment.compositeLinks_within

/-- A loop step that succeeds looked at a loop and the single pipeline. -/
theorem loopStep_eq_ok {name : String} {side : LoopSide} {old new : List Fragment}
    {c : Contribution} (h : loopStep config v name side old new = .ok c) :
    ∃ loop pipeline, loop ∈ (orient side old new).1 ∧ pipeline ∈ (orient side old new).2 ∧
      (v.filePairOf (orient side loop pipeline).1.location (orient side loop pipeline).2.location).map
        (fun p => (⟨p, loopLinks config side loop pipeline p, []⟩ : Contribution)) = .ok c := by
  unfold loopStep at h
  dsimp only at h
  split at h
  · next pipeline hpipeline =>
    split at h
    · cases h
    next loop hloop =>
    rw [hpipeline]
    split at h
    · cases h
    · exact ⟨loop, pipeline, List.mem_of_find?_eq_some hloop, List.mem_singleton.2 rfl, h⟩
  · cases h

theorem loopStep_founded {name : String} {side : LoopSide} {old new : List Fragment}
    {classes : InvolvedClasses} {c : Contribution}
    (h : loopStep config v name side old new = .ok c) :
    Founded config v (replaceLoop side old new classes).correspondences c := by
  -- Which of the fragments is the loop is not known, but it is one of them.
  obtain ⟨loop, pipeline, hloop, hpipeline, h⟩ := loopStep_eq_ok h
  refine founded_of_step h fun p l hl => ?_
  rw [FilePair.settle_immediate] at hl
  exact .flatMap hloop (.flatMap hpipeline (loopLinks_covered hl))

/-- Whatever a refactoring contributes lies within what it connects. -/
theorem contribution_founded {r : Refactoring} {c : Contribution}
    (h : c ∈ (r.attempt config v).contributions) : Founded config v r.correspondences c := by
  replace h := Attempt.mem_steps_of_mem h
  cases r with
  | relocateOperation how old new body =>
    refine founded_of_step (List.mem_singleton.1 h).symm fun p l hl => ?_
    rcases FilePair.mem_settle_operation.1 hl with hl | hl
    · exact (FilePair.declarationLinks_covered hl).left
    · exact (FilePair.body_covered body hl).right
  | relocateAttribute how old new => exact fieldStep_founded (List.mem_singleton.1 h).symm
  | shareBody how body =>
    exact founded_of_step (List.mem_singleton.1 h).symm fun p l => FilePair.body_covered body
  | renameAttribute old new => exact fieldStep_founded (List.mem_singleton.1 h).symm
  | mergeVariables old new classes =>
    obtain ⟨x, hx, hstep⟩ := List.mem_map.1 h
    exact (variableStep_founded hstep).mono fun z hz => List.mem_flatMap.2 ⟨x, hx, hz⟩
  | splitVariable old new classes =>
    obtain ⟨y, hy, hstep⟩ := List.mem_map.1 h
    exact (variableStep_founded hstep).mono fun z hz => List.mem_flatMap.2 ⟨y, hy, hz⟩
  | splitConditional old new classes =>
    obtain ⟨y, hy, hstep⟩ := List.mem_map.1 h
    refine (compositeStep_founded hstep).mono fun z hz => ?_
    obtain rfl := List.mem_singleton.1 hz
    exact List.mem_map_of_mem hy
  | mergeFragments what old new classes =>
    obtain ⟨x, hx, hstep⟩ := List.mem_map.1 h
    refine (compositeStep_founded hstep).mono fun z hz => ?_
    obtain rfl := List.mem_singleton.1 hz
    exact List.mem_map_of_mem hx
  | replaceLoop side old new classes => exact loopStep_founded (List.mem_singleton.1 h).symm
  | extractVariable new classes => cases h

theorem justified_of_adds {r : Refactoring} (h : r.Adds config v source target l) :
    ∃ x ∈ r.correspondences, x.Justifies v source target l := by
  obtain ⟨c, hc, rfl, rfl, hl⟩ := h
  obtain ⟨path, path', hp, hcov⟩ := contribution_founded hc
  obtain ⟨-, -, rfl, rfl⟩ := Versions.filePair_eq_ok_iff.1 hp
  exact (hcov l hl).justifies hp

end Refactoring

/-! ### Outcomes -/

namespace Outcome

theorem ofClassPair_justified {c : ClassPair}
    (h : (ofClassPair config v c).Relates source target l) :
    (source = c.before.sourceFile ∧ target = c.after.sourceFile ∧
      ∃ t u, v.before.get? source = some t ∧ v.after.get? target = some u ∧ c.Frame t u l) ∨
    ∃ x ∈ c.correspondences, x.Justifies v source target l := by
  obtain ⟨p, hp, ⟨rfl, rfl, hl⟩ | ⟨r, hr, hadd⟩⟩ := relates_ofClassPair.1 h
  · obtain ⟨ht, hu, hsource, htarget⟩ := Versions.filePair_eq_ok_iff.1 hp
    rw [← hsource, ← htarget] at hp
    rcases FilePair.classFindings_covered hl with hframe | hcov
    · refine .inl ⟨hsource, htarget, p.source, p.target, ?_, ?_, hframe⟩
      · exact hsource ▸ ht
      · exact htarget ▸ hu
    · exact .inr (hcov.justifies hp)
  · obtain ⟨x, hx, hjust⟩ := Refactoring.justified_of_adds hadd
    exact .inr ⟨x, List.mem_append_right _ (List.mem_flatMap.2 ⟨r, hr, hx⟩), hjust⟩

theorem ofRefactorings_justified {rs : List Refactoring}
    (h : (ofRefactorings config v rs).Relates source target l) :
    ∃ r ∈ rs, ∃ x ∈ r.correspondences, x.Justifies v source target l := by
  obtain ⟨r, hr, hadd⟩ := relates_ofRefactorings.1 h
  exact ⟨r, hr, Refactoring.justified_of_adds hadd⟩

/-- Every link of an outcome is justified. In the files of the class pair it may belong to their
frame; anywhere it may lie within two nodes that the model lists as belonging together. -/
theorem links_justified (config : AlignmentConfig) (v : Versions) (source target : String)
    (l : Link) :
    (∀ c : ClassPair, (ofClassPair config v c).Relates source target l →
      (source = c.before.sourceFile ∧ target = c.after.sourceFile ∧
        ∃ t u, v.before.get? source = some t ∧ v.after.get? target = some u ∧ c.Frame t u l) ∨
      ∃ x ∈ c.correspondences, x.Justifies v source target l) ∧
    (∀ rs : List Refactoring, (ofRefactorings config v rs).Relates source target l →
      ∃ r ∈ rs, ∃ x ∈ r.correspondences, x.Justifies v source target l) :=
  ⟨fun _ => ofClassPair_justified, fun _ => ofRefactorings_justified⟩

/-- A name was changed in one file, and another file came. -/
def renamed : Versions where
  before := .ofList [("A", .fileOf "x")]
  after := .ofList [("A", .fileOf "y"), ("B", .fileOf "x")]

/-- A class whose only statement lies in a method of an anonymous class. -/
def nestedPair : ClassPair :=
  let name : Fragment := { location := { file := "A", span := ⟨1, 8⟩ } }
  let inner : BodyPair := { fragments := [{ before := name, after := name }] }
  { before := { location := { file := "A" } }
    after := { location := { file := "A" } }
    bodies := [{ anonymousClasses := [{ members := [inner] }] }] }

/-- A variable that came to another file. -/
def mergedElsewhere : Refactoring :=
  .mergeVariables [{ location := { file := "A", span := ⟨0, 9⟩ } }]
    { location := { file := "B", span := ⟨0, 9⟩ } } {}

theorem nested_and_merged_justified :
    (ofClassPair {} renamed nestedPair).Relates "A" "A" (1, 1) ∧
    (∃ x ∈ nestedPair.correspondences, x.Justifies renamed "A" "A" (1, 1)) ∧
    (ofRefactorings {} renamed [mergedElsewhere]).Relates "A" "B" (1, 1) ∧
    ∃ r ∈ [mergedElsewhere], ∃ x ∈ r.correspondences, x.Justifies renamed "A" "B" (1, 1) := by
  have hnested : (ofClassPair {} renamed nestedPair).Relates "A" "A" (1, 1) := by decide +kernel
  have hmerged : (ofRefactorings {} renamed [mergedElsewhere]).Relates "A" "B" (1, 1) := by
    decide +kernel
  refine ⟨hnested, ?_, hmerged,
    (links_justified {} renamed "A" "B" (1, 1)).2 [mergedElsewhere] hmerged⟩
  obtain ⟨-, -, t, u, ht, hu, hframe⟩ | hjust :=
    (links_justified {} renamed "A" "A" (1, 1)).1 nestedPair hnested
  · -- The files have neither package declarations nor imports.
    obtain rfl := Option.some.inj ht
    cases hframe with
    | package ha =>
      have hnone : (Tree.fileOf "x").childOfKind? Tree.root Kind.packageDeclaration = none := by
        decide +kernel
      cases hnone.symm.trans ha
    | imports hname => cases hname
  · exact hjust

end Outcome

end Counterpart
