import Counterpart.Project
import Counterpart.Proofs.DiffSet
import Counterpart.Proofs.Outcome.Slot
import Mathlib.Logic.Relation

/-!
# Placement does not matter

The relations of a project are those of its reconciliations taken together (`relates_diff`). So it makes
no difference in which list and at which place of it a class pair stands, nor whether a refactoring is
listed with a class pair or for the project as a whole, provided that the class pair is reconciled at all:
without a tree for one of its files its own refactorings are left aside. `Rearranged` holds of two
projects that differ in such a way, and `diff_placement_independent` compares their differences.
-/

namespace Counterpart.Project

variable {config : ProjectConfig} {p q : Project} {source target : String} {l : Link}

/-- The class pairs of both lists. -/
def classes (p : Project) : List ClassPair :=
  p.commonClasses ++ p.renamedClasses

/-! ### What a project adds up to -/

theorem gathered_outcomes (config : ProjectConfig) (p : Project) :
    ∀ o ∈ p.outcomes config, FileDiff.Gathered p.versions o.diffs := by
  intro o ho
  rcases List.mem_append.1 ho with ho | ho
  · obtain ⟨c, -, rfl⟩ := List.mem_map.1 ho
    exact Outcome.gathered_ofClassPair config.alignment p.versions c
  · obtain rfl := List.mem_singleton.1 ho
    exact Outcome.gathered_ofRefactorings config.alignment p.versions p.refactorings

theorem gathered_diff (config : ProjectConfig) (p : Project) :
    FileDiff.Gathered p.versions (p.diff config).diffs := by
  rw [diff, DiffSet.diffs_foldl_absorb]
  refine (FileDiff.Gathered.nil p.versions).foldl_insertInto fun d hd => ?_
  obtain ⟨o, ho, hd⟩ := List.mem_flatMap.1 hd
  exact (gathered_outcomes config p o ho).isOf d hd

/-- The relations of a project are those of its reconciliations taken together. -/
theorem relates_diff :
    (p.diff config).Relates source target l ↔
      ∃ o ∈ p.outcomes config, o.Relates source target l := by
  have hwell : FileDiff.AllWellFormed ((p.outcomes config).flatMap Outcome.diffs) := by
    intro d hd
    obtain ⟨o, ho, hd⟩ := List.mem_flatMap.1 hd
    exact (gathered_outcomes config p o ho).allWellFormed d hd
  have hfound : (p.diff config).Relates source target l ↔
      FileDiff.Relates (p.diff config).diffs source target l :=
    (gathered_diff config p).relates_iff.symm
  rw [hfound, diff, DiffSet.diffs_foldl_absorb,
    FileDiff.relates_foldl_insertInto FileDiff.allWellFormed_nil hwell]
  constructor
  · rintro (hnil | ⟨d, hd, hl⟩)
    · exact absurd hnil FileDiff.relates_nil
    · obtain ⟨o, ho, hd⟩ := List.mem_flatMap.1 hd
      exact ⟨o, ho, d, hd, hl⟩
  · rintro ⟨o, ho, d, hd, hl⟩
    exact .inr ⟨d, List.mem_flatMap.2 ⟨o, ho, hd⟩, hl⟩

theorem outcomes_eq (h : config.includeRenamed = true) (p : Project) :
    p.outcomes config = p.classes.map (Outcome.ofClassPair config.alignment p.versions) ++
      [Outcome.ofRefactorings config.alignment p.versions p.refactorings] := by
  rw [outcomes, if_pos h]
  rfl

theorem relates_diff_iff (h : config.includeRenamed = true) :
    (p.diff config).Relates source target l ↔
      (∃ c ∈ p.classes, (Outcome.ofClassPair config.alignment p.versions c).Relates source target l) ∨
        (Outcome.ofRefactorings config.alignment p.versions p.refactorings).Relates source target l := by
  rw [relates_diff, outcomes_eq h]
  simp only [List.mem_append, List.mem_map, List.mem_singleton, or_and_right, exists_or, exists_eq_left]
  refine or_congr_left ⟨?_, ?_⟩
  · rintro ⟨_, ⟨c, hc, rfl⟩, hl⟩
    exact ⟨c, hc, hl⟩
  · rintro ⟨c, hc, hl⟩
    exact ⟨_, ⟨c, hc, rfl⟩, hl⟩

theorem warnings_diff (h : config.includeRenamed = true) (p : Project) :
    (p.diff config).warnings =
      p.classes.flatMap (fun c => (Outcome.ofClassPair config.alignment p.versions c).warnings) ++
        p.refactorings.flatMap fun r => (r.attempt config.alignment p.versions).warning.toList := by
  have hlist : (Outcome.ofRefactorings config.alignment p.versions p.refactorings).warnings =
      p.refactorings.flatMap fun r => (r.attempt config.alignment p.versions).warning.toList := by
    show (p.refactorings.map _).filterMap Attempt.warning = _
    rw [List.filterMap_eq_flatMap_toList, List.flatMap_map]
  rw [diff, DiffSet.warnings_foldl_absorb, outcomes_eq h, List.flatMap_append, List.flatMap_map,
    List.flatMap_singleton, hlist]
  rfl

/-! ### A refactoring of a class pair -/

/-- A class pair relates what its refactorings add and what it relates without one of them. -/
theorem relates_ofClassPair_erase {config : AlignmentConfig} {v : Versions} {c : ClassPair}
    {r : Refactoring} {xs ys : List Refactoring}
    (hfiles : ∃ files, v.filePair c.before.sourceFile c.after.sourceFile = .ok files) :
    (Outcome.ofClassPair config v { c with refactorings := xs ++ r :: ys }).Relates source target l ↔
      (Outcome.ofClassPair config v { c with refactorings := xs ++ ys }).Relates source target l ∨
        r.Adds config v source target l := by
  obtain ⟨files, hfiles⟩ := hfiles
  have hrefactorings : (∃ x ∈ xs ++ r :: ys, x.Adds config v source target l) ↔
      (∃ x ∈ xs ++ ys, x.Adds config v source target l) ∨ r.Adds config v source target l := by
    simp only [List.mem_append, List.mem_cons, or_and_right, exists_or, exists_eq_left, or_assoc]
    exact or_congr_right or_comm
  -- what is found in the files of the class pair does not depend on its refactorings
  have hfound : ∀ rs, files.classFindings config { c with refactorings := rs } =
      files.classFindings config c := fun _ => rfl
  simp only [Outcome.relates_ofClassPair, hfiles, Except.ok.injEq, exists_eq_left', hfound,
    hrefactorings, or_assoc]

theorem warnings_ofClassPair_erase {config : AlignmentConfig} {v : Versions} {c : ClassPair}
    {r : Refactoring} {xs ys : List Refactoring}
    (hfiles : ∃ files, v.filePair c.before.sourceFile c.after.sourceFile = .ok files) :
    (Outcome.ofClassPair config v { c with refactorings := xs ++ r :: ys }).warnings.Perm
      ((r.attempt config v).warning.toList ++
        (Outcome.ofClassPair config v { c with refactorings := xs ++ ys }).warnings) := by
  obtain ⟨files, hfiles⟩ := hfiles
  have hlist : ((xs ++ r :: ys).flatMap fun x => (x.attempt config v).warning.toList).Perm
      ((r.attempt config v).warning.toList ++
        (xs ++ ys).flatMap fun x => (x.attempt config v).warning.toList) :=
    List.perm_middle.flatMap_right _
  simp only [Outcome.warnings_ofClassPair, hfiles, List.filterMap_eq_flatMap_toList]
  exact (hlist.append_left _).trans (List.perm_append_comm_assoc ..)

/-! ### Rearranged projects -/

/-- Two projects that say the same in different places. -/
inductive Rearranged : Project → Project → Prop
  /-- The class pairs stand in another order or in the other list. -/
  | classes {p q : Project} (hversions : p.versions = q.versions) (hclasses : p.classes.Perm q.classes)
      (hrefactorings : p.refactorings.Perm q.refactorings) : Rearranged p q
  /-- A refactoring of a class pair with both trees is listed for the project as a whole. -/
  | refactoring {p q : Project} {c : ClassPair} {cs : List ClassPair} {r : Refactoring}
      {xs ys : List Refactoring} (hversions : p.versions = q.versions)
      (hfiles : ∃ files, p.versions.filePair c.before.sourceFile c.after.sourceFile = .ok files)
      (hbefore : p.classes.Perm ({ c with refactorings := xs ++ r :: ys } :: cs))
      (hafter : q.classes.Perm ({ c with refactorings := xs ++ ys } :: cs))
      (hrefactorings : q.refactorings.Perm (r :: p.refactorings)) : Rearranged p q

/-- Two projects have differences between the same files, with the same relations, and the same
warnings. -/
structure SameDiff (config : ProjectConfig) (p q : Project) : Prop where
  files_eq : ∀ source target, ((p.diff config).get? source target).map FileDiff.files =
    ((q.diff config).get? source target).map FileDiff.files
  relates_iff : ∀ source target l,
    (p.diff config).Relates source target l ↔ (q.diff config).Relates source target l
  warnings_perm : (p.diff config).warnings.Perm (q.diff config).warnings

/-- Of two projects with the same versions only relations and warnings have to be compared. -/
theorem SameDiff.of_relates (hversions : p.versions = q.versions)
    (hrelates : ∀ source target l,
      (p.diff config).Relates source target l ↔ (q.diff config).Relates source target l)
    (hwarnings : (p.diff config).warnings.Perm (q.diff config).warnings) : SameDiff config p q := by
  refine ⟨?_, hrelates, hwarnings⟩
  have hp := gathered_diff config p
  have hq := gathered_diff config q
  rw [← hversions] at hq
  refine hp.map_files_eq hq fun source target l => ?_
  rw [hp.relates_iff, hq.relates_iff]
  exact hrelates source target l

theorem SameDiff.refl (config : ProjectConfig) (p : Project) : SameDiff config p p :=
  ⟨fun _ _ => rfl, fun _ _ _ => Iff.rfl, .refl _⟩

theorem SameDiff.symm (h : SameDiff config p q) : SameDiff config q p where
  files_eq source target := (h.files_eq source target).symm
  relates_iff source target l := (h.relates_iff source target l).symm
  warnings_perm := h.warnings_perm.symm

theorem SameDiff.trans {r : Project} (h : SameDiff config p q) (h' : SameDiff config q r) :
    SameDiff config p r where
  files_eq source target := (h.files_eq source target).trans (h'.files_eq source target)
  relates_iff source target l := (h.relates_iff source target l).trans (h'.relates_iff source target l)
  warnings_perm := h.warnings_perm.trans h'.warnings_perm

theorem exists_mem_congr_of_perm {α : Type} {P : α → Prop} {xs ys : List α} (h : xs.Perm ys) :
    (∃ x ∈ xs, P x) ↔ ∃ x ∈ ys, P x :=
  exists_congr fun _ => and_congr_left fun _ => h.mem_iff

theorem sameDiff_of_rearranged (hrenamed : config.includeRenamed = true) (h : Rearranged p q) :
    SameDiff config p q := by
  cases h with
  | classes hversions hclasses hrefactorings =>
    refine .of_relates hversions (fun source target l => ?_) ?_
    · rw [relates_diff_iff hrenamed, relates_diff_iff hrenamed, Outcome.relates_ofRefactorings,
        Outcome.relates_ofRefactorings, exists_mem_congr_of_perm hclasses,
        exists_mem_congr_of_perm hrefactorings, hversions]
    · rw [warnings_diff hrenamed, warnings_diff hrenamed, hversions]
      exact (hclasses.flatMap_right _).append (hrefactorings.flatMap_right _)
  | refactoring hversions hfiles hbefore hafter hrefactorings =>
    refine .of_relates hversions (fun source target l => ?_) ?_
    · rw [relates_diff_iff hrenamed, relates_diff_iff hrenamed, Outcome.relates_ofRefactorings,
        Outcome.relates_ofRefactorings, exists_mem_congr_of_perm hbefore,
        exists_mem_congr_of_perm hafter, exists_mem_congr_of_perm hrefactorings, ← hversions]
      simp only [List.mem_cons, or_and_right, exists_or, exists_eq_left,
        relates_ofClassPair_erase hfiles]
      exact (or_congr_left or_right_comm).trans or_assoc
    · rw [warnings_diff hrenamed, warnings_diff hrenamed, ← hversions]
      -- the warning of the refactoring moves from the first class pair to the end
      refine ((hbefore.flatMap_right _).append_right _).trans
        (.trans ?_ ((hafter.flatMap_right _).append (hrefactorings.flatMap_right _)).symm)
      rw [List.flatMap_cons, List.flatMap_cons, List.flatMap_cons, List.append_assoc, List.append_assoc]
      refine ((warnings_ofClassPair_erase hfiles).append_right _).trans ?_
      rw [List.append_assoc, ← List.append_assoc (Outcome.warnings _)]
      refine (List.perm_append_comm_assoc _ _ _).trans ?_
      rw [List.append_assoc]

/-- With the renamed classes taken into account, the differences of a project hold for every two files
what its reconciliations relate there, and nothing else. So projects that say the same in different
places have the same differences. -/
theorem diff_placement_independent (config : ProjectConfig) (h : config.includeRenamed = true) :
    (∀ p : Project, FileDiff.Gathered p.versions (p.diff config).diffs ∧
      ∀ source target l, (p.diff config).Relates source target l ↔
        (∃ c ∈ p.commonClasses ++ p.renamedClasses,
          (Outcome.ofClassPair config.alignment p.versions c).Relates source target l) ∨
        (Outcome.ofRefactorings config.alignment p.versions p.refactorings).Relates source target l) ∧
    ∀ p q : Project, Relation.EqvGen Rearranged p q → SameDiff config p q := by
  refine ⟨fun p => ⟨gathered_diff config p, fun source target l => relates_diff_iff h⟩, ?_⟩
  intro p q hpq
  induction hpq with
  | rel p q hstep => exact sameDiff_of_rearranged h hstep
  | refl p => exact .refl config p
  | symm p q _ ih => exact ih.symm
  | trans p q r _ _ ihpq ihqr => exact ihpq.trans ihqr

/-- A variable of the file of the class comes to a third file. -/
def mergeIntoB : Refactoring :=
  .mergeVariables [{ location := { file := "A", span := ⟨0, 9⟩ } }]
    { location := { file := "B", span := ⟨0, 9⟩ } } {}

/-- A class with refactorings of its own. -/
def classInA (rs : List Refactoring) : ClassPair where
  before := { location := { file := "A" } }
  after := { location := { file := "A" } }
  refactorings := rs

/-- A project whose class kept its name and lists the refactoring. -/
def listedLocally : Project where
  versions :=
    { before := .ofList [("A", .fileOf "x")]
      after := .ofList [("A", .fileOf "y"), ("B", .fileOf "x")] }
  commonClasses := [classInA [mergeIntoB]]

/-- The same project with the class among the renamed ones and the refactoring on its own. -/
def listedGlobally : Project :=
  { listedLocally with
    commonClasses := []
    renamedClasses := [classInA []]
    refactorings := [mergeIntoB] }

theorem listedLocally_sameDiff :
    (listedLocally.diff {}).Relates "A" "B" (1, 1) ∧ (listedGlobally.diff {}).Relates "A" "B" (1, 1) ∧
    SameDiff {} listedLocally listedGlobally ∧ SameDiff {} listedGlobally listedLocally := by
  obtain ⟨hrelates, hsame⟩ := diff_placement_independent {} rfl
  have hmoved : Rearranged listedLocally listedGlobally :=
    @Rearranged.refactoring listedLocally listedGlobally (classInA []) [] mergeIntoB [] [] rfl ⟨_, rfl⟩
      (.refl _) (.refl _) (.refl _)
  have hlocal : (listedLocally.diff {}).Relates "A" "B" (1, 1) :=
    ((hrelates listedLocally).2 "A" "B" (1, 1)).2
      (.inl ⟨classInA [mergeIntoB], List.mem_singleton_self _, by decide +kernel⟩)
  have hforth := hsame _ _ (.rel _ _ hmoved)
  exact ⟨hlocal, (hforth.relates_iff _ _ _).1 hlocal, hforth, hsame _ _ (.symm _ _ (.rel _ _ hmoved))⟩

end Counterpart.Project
