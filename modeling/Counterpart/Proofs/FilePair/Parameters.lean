import Counterpart.FilePair.Body
import Counterpart.Proofs.FilePair.Coverage
import Counterpart.Proofs.Tree.Hashing
import Counterpart.Proofs.Tree.Paths
import Counterpart.Proofs.Tree.Resolution

/-!
# Parameters that were renamed at most

Two parameters are linked as a whole or not at all. `FilePair.DiffersInName` says path by path what may have
changed: the label of the declaration itself and labels within a name directly below it, unless they are
keywords. The test for it compares the shape of the declarations and then part by part all but the names
(`isSameParameter_iff`), so a change of a type, a modifier or an annotation is found at any depth. The main
statement is `parameterLinks_exact`.
-/

namespace Counterpart

namespace Tree

variable {t u : Tree} {a b : Nat}

/-- In finished trees the stored values hide no subtrees of the same shape. -/
theorem IsFinished.isSameShape_iff (ht : t.IsFinished) (hu : u.IsFinished) (ha : a < t.count)
    (hb : b < u.count) :
    t.isSameShape a u b = true ↔ Term.outline (t.term a) = Term.outline (u.term b) :=
  (HashedTree.IsSettled.isSameShape_iff (h := fun _ => 0)
    (x := ⟨t, fun n => (t.measures n).words fun _ => 0⟩)
    (y := ⟨u, fun n => (u.measures n).words fun _ => 0⟩)
    ⟨ht, fun _ => rfl⟩ ⟨hu, fun _ => rfl⟩ ha hb).2

end Tree

namespace FilePair

open Counterpart.Tree

variable {p : FilePair} {l : Link} {x y : Variable}

/-- A path to where a label may differ: it ends at the declaration itself or goes into a name directly below
it. -/
def IsNamePath (t : Tree) (n : Nat) : List Nat → Prop
  | [] => True
  | i :: _ => ∃ c, t.child? n i = some c ∧ t.kind c = Kind.simpleName

/-- The same paths exist below both nodes. They lead to nodes of the same kind, and of the same label if it is
a keyword or the path is not one to a name. -/
structure DiffersInName (p : FilePair) (l : Link) : Prop where
  samePaths : SamePaths p.source p.target l.1 l.2
  kind_eq : ∀ {path m n}, p.source.nodeAt? l.1 path = some m → p.target.nodeAt? l.2 path = some n →
    p.source.kind m = p.target.kind n
  keyword_eq : ∀ {path m n}, p.source.nodeAt? l.1 path = some m → p.target.nodeAt? l.2 path = some n →
    (p.source.kind m).isKeyword = true → p.source.label m = p.target.label n
  label_eq : ∀ {path m n}, p.source.nodeAt? l.1 path = some m → p.target.nodeAt? l.2 path = some n →
    ¬ IsNamePath p.source l.1 path → p.source.label m = p.target.label n

theorem DiffersInName.outline_eq (h : p.DiffersInName l) :
    Term.outline (p.source.term l.1) = Term.outline (p.target.term l.2) :=
  outline_eq_iff_paths.2 fun _ => h.samePaths.map_nodeAt?_eq fun _ _ hm hn =>
    Atom.outline_eq_iff.2 ⟨h.kind_eq hm hn, h.keyword_eq hm hn⟩

/-- Off the names everything is the same. -/
theorem DiffersInName.atom_eq (h : p.DiffersInName l) {path : List Nat}
    (hpath : ¬ IsNamePath p.source l.1 path) :
    (p.source.nodeAt? l.1 path).map p.source.atom = (p.target.nodeAt? l.2 path).map p.target.atom :=
  h.samePaths.map_nodeAt?_eq fun _ _ hm hn =>
    (Atom.mk.injEq ..).mpr ⟨h.kind_eq hm hn, h.label_eq hm hn hpath⟩

theorem DiffersInName.term_eq (h : p.DiffersInName l) {i c d : Nat} (hc : p.source.child? l.1 i = some c)
    (hd : p.target.child? l.2 i = some d) (hkind : p.source.kind c ≠ Kind.simpleName) :
    p.source.term c = p.target.term d := by
  refine term_eq_iff_paths.2 fun path => ?_
  have hpath : ¬ IsNamePath p.source l.1 (i :: path) := by
    rintro ⟨e, he, hsimple⟩
    obtain rfl := Option.some.inj (hc.symm.trans he)
    exact hkind hsimple
  have hatom := h.atom_eq hpath
  rwa [nodeAt?_cons, nodeAt?_cons, hc, hd] at hatom

/-- The test for parameters compares what it should, in finished trees. -/
theorem isSameParameter_iff (hs : p.source.IsFinished) (ht : p.target.IsFinished)
    (hl : l.1 < p.source.count) (hl' : l.2 < p.target.count) :
    p.isSameParameter l = true ↔ p.DiffersInName l := by
  have hchild : ∀ {c d : Nat}, (c, d) ∈ (p.source.children l.1).zip (p.target.children l.2) →
      c < p.source.count ∧ d < p.target.count := fun hcd =>
    ⟨lt_count_of_parent (mem_children.1 (List.of_mem_zip hcd).1),
      lt_count_of_parent (mem_children.1 (List.of_mem_zip hcd).2)⟩
  rw [isSameParameter, Bool.and_eq_true, List.all_eq_true, FilePair.isSameShape,
    hs.isSameShape_iff ht hl hl']
  constructor
  · rintro ⟨houtline, hparts⟩
    have hends : ∀ {path m n}, p.source.nodeAt? l.1 path = some m → p.target.nodeAt? l.2 path = some n →
        (p.source.atom m).outline = (p.target.atom n).outline := fun {path m n} hm hn =>
      outline_eq_of_mem_pathLinks (l := (m, n)) houtline ⟨path, hm, hn⟩
    refine ⟨samePaths_of_outline_eq houtline, fun hm hn => (Atom.outline_eq_iff.1 (hends hm hn)).1,
      fun hm hn => (Atom.outline_eq_iff.1 (hends hm hn)).2, fun {path m n} hm hn hpath => ?_⟩
    cases path with
    | nil => exact absurd trivial hpath
    | cons i path =>
      obtain ⟨c, hc, hm⟩ := nodeAt?_cons_eq_some_iff.1 hm
      obtain ⟨d, hd, hn⟩ := nodeAt?_cons_eq_some_iff.1 hn
      have hpart := hparts (c, d) (mem_zip_children_iff.2 ⟨i, hc, hd⟩)
      rcases Bool.or_eq_true_iff.1 hpart with hkind | hiso
      · exact absurd ⟨c, hc, beq_iff_eq.1 hkind⟩ hpath
      · have hatom := term_eq_iff_paths.1 (term_eq_of_isIsomorphic hiso) path
        rw [hm, hn] at hatom
        exact congrArg Atom.label (Option.some.inj hatom)
  · intro h
    refine ⟨h.outline_eq, fun ⟨c, d⟩ hcd => ?_⟩
    by_cases hkind : p.source.kind c = Kind.simpleName
    · exact Bool.or_eq_true_iff.2 (.inl (beq_iff_eq.2 hkind))
    · obtain ⟨i, hc, hd⟩ := mem_zip_children_iff.1 hcd
      exact Bool.or_eq_true_iff.2 (.inr ((hs.isIsomorphic_iff ht (hchild hcd).1 (hchild hcd).2).2
        (h.term_eq hc hd hkind)))

/-- The locations of two variables denote parameters of methods that differ in their names at most. -/
structure KeepsParameter (p : FilePair) (x y : Variable) (l : Link) : Prop where
  found : p.resolve? x.location y.location = some l
  source_method : ∃ q, p.source.parent l.1 = some q ∧ p.source.kind q = Kind.methodDeclaration
  target_method : ∃ q, p.target.parent l.2 = some q ∧ p.target.kind q = Kind.methodDeclaration
  differsInName : p.DiffersInName l

theorem isInSignature_iff {t : Tree} {n : Nat} :
    isInSignature t n = true ↔ ∃ q, t.parent n = some q ∧ t.kind q = Kind.methodDeclaration := by
  rw [isInSignature, Option.any_eq_true]
  simp only [beq_iff_eq]

theorem lt_count_of_resolve? {m n : Location} (h : p.resolve? m n = some l) :
    l.1 < p.source.count ∧ l.2 < p.target.count := by
  obtain ⟨-, -, hs, ht⟩ := resolveBy?_spec h
  exact ⟨lt_count_of_resolve hs, lt_count_of_resolve ht⟩

/-- What the locations denote is put to the test. -/
theorem keepsParameter_iff (hs : p.source.IsFinished) (ht : p.target.IsFinished)
    (hfound : p.resolve? x.location y.location = some l) :
    p.KeepsParameter x y l ↔
      (isInSignature p.source l.1 && isInSignature p.target l.2 && p.isSameParameter l) = true := by
  obtain ⟨hl, hl'⟩ := lt_count_of_resolve? hfound
  rw [Bool.and_eq_true, Bool.and_eq_true, isInSignature_iff, isInSignature_iff,
    isSameParameter_iff hs ht hl hl', and_assoc]
  constructor
  · rintro ⟨-, hsource, htarget, hname⟩
    exact ⟨hsource, htarget, hname⟩
  · rintro ⟨hsource, htarget, hname⟩
    exact ⟨hfound, hsource, htarget, hname⟩

theorem KeepsParameter.parameterLinks_eq (hs : p.source.IsFinished) (ht : p.target.IsFinished)
    (h : p.KeepsParameter x y l) : p.parameterLinks x y = p.overlay l := by
  rw [parameterLinks, wholeLinksIf, h.found, Option.filter_some,
    if_pos ((keepsParameter_iff hs ht h.found).1 h), Option.toList_some, List.flatMap_singleton]

theorem parameterLinks_eq_nil (hs : p.source.IsFinished) (ht : p.target.IsFinished)
    (h : ∀ l, ¬ p.KeepsParameter x y l) : p.parameterLinks x y = [] := by
  rw [parameterLinks, wholeLinksIf]
  cases hfound : p.resolve? x.location y.location with
  | none => rfl
  | some l =>
    rw [Option.filter_some, if_neg fun htest => h l ((keepsParameter_iff hs ht hfound).2 htest)]
    rfl

/-- Of two variables in finished trees, either nothing is linked or the two whole declarations, path by path,
which is a bijection between their nodes. They are linked if and only if the locations denote parameters of
methods that differ in their names at most. A change anywhere else, such as in a type argument or the value of
an annotation, leaves nothing linked. -/
theorem parameterLinks_exact (hs : p.source.IsFinished) (ht : p.target.IsFinished) (x y : Variable) :
    (p.parameterLinks x y ≠ [] ↔ ∃ l, p.KeepsParameter x y l) ∧
    (∀ l, p.KeepsParameter x y l →
      (∀ k, k ∈ p.parameterLinks x y ↔ k ∈ pathLinks p.source p.target l.1 l.2) ∧
      Set.BijOn Prod.fst (pathLinks p.source p.target l.1 l.2) {n | n ∈ p.source.descendants l.1} ∧
      Set.BijOn Prod.snd (pathLinks p.source p.target l.1 l.2) {n | n ∈ p.target.descendants l.2}) ∧
    ∀ l, p.resolve? x.location y.location = some l → ∀ path, ¬ IsNamePath p.source l.1 path →
      (p.source.nodeAt? l.1 path).map p.source.atom ≠ (p.target.nodeAt? l.2 path).map p.target.atom →
        p.parameterLinks x y = [] := by
  refine ⟨⟨fun hlinked => ?_, ?_⟩, fun l hkeeps => ⟨fun k => ?_, ?_, ?_⟩, fun l hfound path hpath hne => ?_⟩
  · by_contra hnone
    exact hlinked (parameterLinks_eq_nil hs ht fun l hl => hnone ⟨l, hl⟩)
  · rintro ⟨l, hkeeps⟩
    rw [hkeeps.parameterLinks_eq hs ht]
    exact List.ne_nil_of_mem (self_mem_overlay ..)
  · rw [hkeeps.parameterLinks_eq hs ht]
    exact mem_overlay_iff_path
  · exact hkeeps.differsInName.samePaths.bijOn_fst
  · exact hkeeps.differsInName.samePaths.bijOn_snd
  · refine parameterLinks_eq_nil hs ht fun k hkeeps => hne ?_
    obtain rfl := Option.some.inj (hfound.symm.trans hkeeps.found)
    exact hkeeps.differsInName.atom_eq hpath

/-- A method that takes a list of what `argument` names. -/
def methodTaking (argument name : String) : Tree :=
  (((((single ⟨Kind.methodDeclaration, none⟩ ⟨0, 30⟩).addChild 0 ⟨Kind.singleVariableDeclaration, none⟩
    ⟨5, 25⟩).addChild 1 ⟨Kind.parameterizedType, none⟩ ⟨5, 17⟩).addChild 2 ⟨Kind.simpleType, some "List"⟩
    ⟨5, 9⟩).addChild 2 ⟨Kind.simpleType, some argument⟩ ⟨10, 16⟩).addChild 1 ⟨Kind.simpleName, some name⟩
    ⟨18, 25⟩ |>.finish

theorem isFinished_methodTaking (argument name : String) : (methodTaking argument name).IsFinished :=
  ⟨_, rfl⟩

/-- The method before, and the method after its parameter was changed. -/
def changedParameter (argument name : String) : FilePair :=
  ⟨"A.java", "A.java", methodTaking "String" "ids", methodTaking argument name⟩

def listParameter : Variable := { name := "ids", location := { file := "A.java", span := ⟨5, 25⟩ } }

/-- A parameter that was renamed is linked with its type and its name; one whose type argument was changed is
not linked at all. -/
theorem listParameter_kept_by_name :
    let renamed := changedParameter "String" "names"
    let retyped := changedParameter "Object" "ids"
    (renamed.KeepsParameter listParameter listParameter (1, 1) ∧
      (1, 1) ∈ renamed.parameterLinks listParameter listParameter ∧
      (4, 4) ∈ renamed.parameterLinks listParameter listParameter ∧
      (5, 5) ∈ renamed.parameterLinks listParameter listParameter) ∧
    retyped.resolve? listParameter.location listParameter.location = some (1, 1) ∧
      retyped.parameterLinks listParameter listParameter = [] := by
  intro renamed retyped
  have hs : renamed.source.IsFinished := isFinished_methodTaking "String" "ids"
  have ht : renamed.target.IsFinished := isFinished_methodTaking "String" "names"
  have ht' : retyped.target.IsFinished := isFinished_methodTaking "Object" "ids"
  obtain ⟨-, hlinked, -⟩ := parameterLinks_exact hs ht listParameter listParameter
  obtain ⟨-, -, hchanged⟩ := parameterLinks_exact (p := retyped) hs ht' listParameter listParameter
  have hfound : renamed.resolve? listParameter.location listParameter.location = some (1, 1) := by
    decide +kernel
  have hkeeps : renamed.KeepsParameter listParameter listParameter (1, 1) :=
    (keepsParameter_iff hs ht hfound).2 (by decide +kernel)
  have hpaths := (hlinked (1, 1) hkeeps).1
  have hfound' : retyped.resolve? listParameter.location listParameter.location = some (1, 1) := by
    decide +kernel
  have hargument : ¬ IsNamePath retyped.source 1 [0, 1] := by
    rintro ⟨c, hc, hkind⟩
    have htype : retyped.source.child? 1 0 = some 2 := by decide +kernel
    obtain rfl := Option.some.inj (htype.symm.trans hc)
    revert hkind
    decide +kernel
  refine ⟨⟨hkeeps, ?_, ?_, ?_⟩, hfound', hchanged (1, 1) hfound' [0, 1] hargument (by decide +kernel)⟩
  · exact (hpaths (1, 1)).2 ⟨[], by decide +kernel, by decide +kernel⟩
  · exact (hpaths (4, 4)).2 ⟨[0, 1], by decide +kernel, by decide +kernel⟩
  · exact (hpaths (5, 5)).2 ⟨[1], by decide +kernel, by decide +kernel⟩

end FilePair

end Counterpart
