import Counterpart.Proofs.Alignment.Growth
import Counterpart.Proofs.Tree.Positions

/-!
# Parents are settled before their children

The second part of an alignment goes over the source subtree twice, in pre-order, and pairs inner nodes on
the first way and leaves on the second. A visit pairs at most the visited node, and only with a node at or
below the partner of its parent (`Admissible`). A parent is an inner node and stands before its children, so
the partner that it has when a child is visited is the one it has in the end (`parentPartner?_inner_visit`,
`parentPartner?_leaf_visit`). Two laws of whole alignments follow. The partner of a node that was paired
late lies below the partner of its parent (`align_respects_parents`), and of the children of two partners no
two are left free that a rule would pair (`align_locally_maximal`).
-/

namespace Counterpart.Alignment

open Matching Counterpart.Tree

variable {config : AlignmentConfig} {t u : Tree} {a b : Nat} {m : Matching}

/-! ### One visit -/

/-- What a visit may pair: two free nodes of one kind, the second one at or below the partner of the parent
of the first. -/
structure Admissible (t u : Tree) (m : Matching) (x y : Nat) : Prop where
  source_free : m.hasSource x = false
  target_free : m.hasTarget y = false
  kind_eq : t.kind x = u.kind y
  within : ∀ q, parentPartner? t m x = some q → y ∈ u.descendants q

/-- The partner of the parent is not free, so what is admissible lies below it. -/
theorem Admissible.below {x y q : Nat} (h : Admissible t u m x y) (hm : m.OneToOne)
    (hq : parentPartner? t m x = some q) : y ∈ u.strictDescendants q := by
  obtain ⟨p, -, hpq⟩ := Option.bind_eq_some_iff.1 hq
  have htaken : m.hasTarget q = true :=
    hm.hasTarget_iff.2 ⟨p, (hm.target?_eq_some_iff p q).1 hpq⟩
  rcases mem_descendants_iff.1 (h.within q hq) with rfl | hbelow
  · rw [h.target_free] at htaken
    cases htaken
  · exact mem_strictDescendants_iff.2 hbelow

/-- A round of a pass over the nodes for which `leaf` says whether they are leaves: it leaves the matching
as it is, or pairs the visited node with an admissible one. -/
def IsVisit (t u : Tree) (leaf : Bool) (f : Matching → Nat → Matching) : Prop :=
  ∀ m x, f m x = m ∨ t.isLeaf x = leaf ∧ ∃ y, Admissible t u m x y ∧ f m x = m.pair x y

theorem within_of_respectsParents {x y : Nat} (h : respectsParents t u m x y = true) {q : Nat}
    (hq : parentPartner? t m x = some q) : y ∈ u.descendants q := by
  have hq' : (t.parent x).bind m.target? = some q := hq
  simp only [respectsParents, hq', Option.all_some, Bool.and_eq_true] at h
  exact isWithin_iff.1 h.1

theorem isVisit_pairInner (config : AlignmentConfig) (t u : Tree) (root : Nat) :
    IsVisit t u false (pairInner config t u root) := by
  intro m x
  unfold pairInner
  split
  · exact .inl rfl
  · next hfree =>
    obtain ⟨hs, hleaf⟩ := or_eq_false_of_not hfree
    split
    · next y hy =>
      refine .inr ⟨hleaf, y, ?_, rfl⟩
      rcases Option.or_eq_some_iff.1 hy with hy | ⟨-, hy⟩
      · obtain ⟨⟨q, hq, hyq⟩, hd, hkind, -⟩ := sameSpot?_spec hy
        refine ⟨hs, hd, hkind.symm, fun q' hq' => ?_⟩
        obtain rfl := Option.some.inj (hq.symm.trans hq')
        exact mem_descendants_of_child hyq
      · obtain ⟨-, hd, -, hkind, hparents⟩ := mem_innerCandidates.1 (mem_of_mostSimilar? hy)
        exact ⟨hs, hd, hkind.symm, fun q hq => within_of_respectsParents hparents hq⟩
    · exact .inl rfl

theorem isVisit_pairLeaf (t u : Tree) : IsVisit t u true (pairLeaf t u) := by
  intro m x
  unfold pairLeaf
  split
  · exact .inl rfl
  · next hfree =>
    obtain ⟨hs, hinner⟩ := or_eq_false_of_not hfree
    split
    · next y hy =>
      obtain ⟨⟨q, hq, hyq⟩, hd, -, hkind⟩ := leafPartner?_spec hy
      refine .inr ⟨by simpa using hinner, y, ⟨hs, hd, hkind.symm, fun q' hq' => ?_⟩, rfl⟩
      obtain rfl := Option.some.inj (hq.symm.trans hq')
      exact mem_descendants_of_child hyq
    · exact .inl rfl

/-! ### A pass -/

variable {leaf : Bool} {f : Matching → Nat → Matching} {xs : List Nat}

theorem IsVisit.grows (hf : IsVisit t u leaf f) (m : Matching) (x : Nat) :
    Grows (fun l => l.1 = x ∧ t.isLeaf l.1 = leaf) m (f m x) := by
  rcases hf m x with h | ⟨hleaf, y, hy, h⟩
  · rw [h]
    exact .refl
  · rw [h]
    exact .pair .refl hy.source_free hy.target_free ⟨rfl, hleaf⟩

/-- A pass pairs none but the nodes that it goes over, and of these only leaves or only inner nodes. -/
theorem IsVisit.foldl_grows (hf : IsVisit t u leaf f) (xs : List Nat) (m : Matching) :
    Grows (fun l => l.1 ∈ xs ∧ t.isLeaf l.1 = leaf) m (xs.foldl f m) :=
  .foldl fun x hx m' _ => (hf.grows m' x).mono fun _ hl => ⟨hl.1 ▸ hx, hl.2⟩

theorem IsVisit.foldl_keeps (hf : IsVisit t u leaf f) (xs : List Nat) (m : Matching) :
    Grows (fun _ => True) m (xs.foldl f m) :=
  (hf.foldl_grows xs m).mono fun _ _ => trivial

/-- A pair that a pass added was added when its source was visited, and was admissible then. -/
theorem IsVisit.exists_visit (hf : IsVisit t u leaf f) {l : Link} (hl : l ∈ (xs.foldl f m).pairs)
    (hnew : l ∉ m.pairs) :
    ∃ before after, xs = before ++ l.1 :: after ∧ Admissible t u (before.foldl f m) l.1 l.2 := by
  induction xs generalizing m with
  | nil => exact absurd hl hnew
  | cons x xs ih =>
    by_cases hfirst : l ∈ (f m x).pairs
    · rcases hf m x with h | ⟨-, y, hy, h⟩
      · rw [h] at hfirst
        exact absurd hfirst hnew
      · rw [h, pairs_pair, List.mem_append, List.mem_singleton] at hfirst
        obtain rfl := hfirst.resolve_left hnew
        exact ⟨[], xs, rfl, hy⟩
    · obtain ⟨before, after, hxs, hadmissible⟩ := ih hl hfirst
      exact ⟨x :: before, after, by rw [hxs, List.cons_append], hadmissible⟩

/-- A matching only grows, from before a visit to after it and on to the end of the pass. -/
theorem IsVisit.grows_on (hf : IsVisit t u leaf f) {before after : List Nat} {x : Nat}
    (hxs : xs = before ++ x :: after) (m : Matching) :
    Grows (fun _ => True) (before.foldl f m) (f (before.foldl f m) x) ∧
      Grows (fun _ => True) (f (before.foldl f m) x) (xs.foldl f m) := by
  refine ⟨(hf.grows _ x).mono fun _ _ => trivial, ?_⟩
  rw [hxs, List.foldl_append, List.foldl_cons]
  exact hf.foldl_keeps after _

/-! ### Settled parents -/

/-- The matching between the two passes: all inner nodes have been visited. -/
def pairedInner (config : AlignmentConfig) (t u : Tree) (a b : Nat) : Matching :=
  (t.descendants a).foldl (pairInner config t u b) (pairRoots config t u a b)

theorem align_eq_foldl (config : AlignmentConfig) (t u : Tree) (a b : Nat) :
    align config t u a b = (t.descendants a).foldl (pairLeaf t u) (pairedInner config t u a b) :=
  rfl

theorem isLeaf_of_parent {x p : Nat} (h : t.parent x = some p) : t.isLeaf p = false := by
  have hne : t.children p ≠ [] := List.ne_nil_of_mem (mem_children.2 h)
  simpa [isLeaf] using hne

/-- Visiting leaves changes no partner of a parent. -/
theorem parentPartner?_foldl_pairLeaf (xs : List Nat) (m : Matching) (x : Nat) :
    parentPartner? t (xs.foldl (pairLeaf t u) m) x = parentPartner? t m x := by
  unfold parentPartner?
  cases hp : t.parent x with
  | none => rfl
  | some p =>
    refine ((isVisit_pairLeaf t u).foldl_grows xs m).target?_eq ?_
    rintro l ⟨-, hleaf⟩ rfl
    rw [isLeaf_of_parent hp] at hleaf
    cases hleaf

variable {before after : List Nat} {x : Nat}

/-- When an inner node is visited, its parent has the partner that it has in the end. -/
theorem parentPartner?_inner_visit (h : t.descendants a = before ++ x :: after) (hx : x ≠ a) :
    parentPartner? t (before.foldl (pairInner config t u b) (pairRoots config t u a b)) x =
      parentPartner? t (align config t u a b) x := by
  rw [align_eq_foldl, parentPartner?_foldl_pairLeaf, pairedInner, h, List.foldl_append]
  unfold parentPartner?
  cases hp : t.parent x with
  | none => rfl
  | some p =>
    -- the parent is done with: it is not among the nodes still to be visited
    have hdone := (parent_mem_before h hx hp).2
    refine (((isVisit_pairInner config t u b).foldl_grows (x :: after) _).target?_eq ?_).symm
    rintro l ⟨hl, -⟩ rfl
    exact hdone hl

/-- At no time of the second pass a parent has another partner than in the end. -/
theorem parentPartner?_leaf_visit (visited : List Nat) (x : Nat) :
    parentPartner? t (visited.foldl (pairLeaf t u) (pairedInner config t u a b)) x =
      parentPartner? t (align config t u a b) x := by
  rw [align_eq_foldl, parentPartner?_foldl_pairLeaf, parentPartner?_foldl_pairLeaf]

theorem pairedInner_grows (config : AlignmentConfig) (t u : Tree) (a b : Nat) :
    Grows (fun _ => True) (pairRoots config t u a b) (pairedInner config t u a b) :=
  (isVisit_pairInner config t u b).foldl_keeps _ _

theorem oneToOne_pairRoots (config : AlignmentConfig) (t u : Tree) (a b : Nat) :
    (pairRoots config t u a b).OneToOne :=
  (pairRoots_grows config t u a b).oneToOne oneToOne_empty

theorem oneToOne_align (config : AlignmentConfig) (t u : Tree) (a b : Nat) :
    (align config t u a b).OneToOne :=
  (align_grows config t u a b).oneToOne oneToOne_empty

/-- The root of the source subtree is paired before the first visit, so no visit pairs it. -/
theorem Admissible.ne_root {y : Nat} (hgrows : Grows (fun _ => True) (pairRoots config t u a b) m)
    (h : Admissible t u m x y) : x ≠ a := by
  rintro rfl
  have hroot : (pairRoots config t u x b).hasSource x = true :=
    (oneToOne_pairRoots config t u x b).hasSource_iff.2 ⟨b, mem_pairRoots config t u x b⟩
  have htaken := hgrows.hasSource hroot
  rw [h.source_free] at htaken
  cases htaken

/-! ### Late pairs -/

/-- A pair that neither the identical parts nor the roots account for was admissible at a time when its
source was not the root and the parent of the source had the partner that it has in the end. -/
theorem exists_admissible {l : Link} (hl : l ∈ (align config t u a b).pairs)
    (hnew : l ∉ (pairRoots config t u a b).pairs) :
    ∃ m, m.OneToOne ∧ Admissible t u m l.1 l.2 ∧
      parentPartner? t m l.1 = parentPartner? t (align config t u a b) l.1 := by
  by_cases hinner : l ∈ (pairedInner config t u a b).pairs
  · obtain ⟨before, after, hsplit, hadmissible⟩ :=
      (isVisit_pairInner config t u b).exists_visit hinner hnew
    have hgrows : Grows (fun _ => True) (pairRoots config t u a b)
        (before.foldl (pairInner config t u b) (pairRoots config t u a b)) :=
      (isVisit_pairInner config t u b).foldl_keeps before _
    exact ⟨_, hgrows.oneToOne (oneToOne_pairRoots config t u a b), hadmissible,
      parentPartner?_inner_visit hsplit (hadmissible.ne_root hgrows)⟩
  · obtain ⟨before, -, -, hadmissible⟩ :=
      (isVisit_pairLeaf t u).exists_visit (align_eq_foldl config t u a b ▸ hl) hinner
    have hgrows : Grows (fun _ => True) (pairRoots config t u a b)
        (before.foldl (pairLeaf t u) (pairedInner config t u a b)) :=
      (pairedInner_grows config t u a b).trans ((isVisit_pairLeaf t u).foldl_keeps before _)
    exact ⟨_, hgrows.oneToOne (oneToOne_pairRoots config t u a b), hadmissible,
      parentPartner?_leaf_visit before l.1⟩

/-- An alignment starts with the identical parts and the roots. Every pair that it adds to these joins nodes
of one kind, and the second one lies below the partner that the parent of the first has in the end. -/
theorem align_respects_parents (config : AlignmentConfig) (t u : Tree) (a b : Nat) :
    (pairRoots config t u a b).pairs <+: (align config t u a b).pairs ∧
    ∀ x y, (x, y) ∈ (align config t u a b).pairs → (x, y) ∉ (pairRoots config t u a b).pairs →
      t.kind x = u.kind y ∧
      ∀ p q, t.parent x = some p → (align config t u a b).target? p = some q →
        y ∈ u.strictDescendants q := by
  refine ⟨(bottomUp_grows (pairRoots_grows config t u a b)).pairs_extend, fun x y hxy hnew => ?_⟩
  obtain ⟨m, hm, hadmissible, hpartner⟩ := exists_admissible hxy hnew
  refine ⟨hadmissible.kind_eq, fun p q hp hq => ?_⟩
  have hfinal : parentPartner? t (align config t u a b) x = some q :=
    Option.bind_eq_some_iff.2 ⟨p, hp, hq⟩
  exact hadmissible.below hm (hpartner.trans hfinal)

/-- A block that holds a call of two names. -/
def callInBlock : Tree :=
  (((single ⟨Kind.block, none⟩ ⟨0, 9⟩).addChild 0 ⟨Kind.expressionStatement, none⟩ ⟨1, 8⟩).addChild 1
    ⟨Kind.simpleName, some "x"⟩ ⟨2, 3⟩).addChild 1 ⟨Kind.simpleName, some "y"⟩ ⟨4, 5⟩ |>.finish

/-- A similar call, one level deeper. -/
def guardedCall : Tree :=
  ((((single ⟨Kind.block, none⟩ ⟨0, 9⟩).addChild 0 ⟨Kind.ifStatement, none⟩ ⟨1, 8⟩).addChild 1
    ⟨Kind.expressionStatement, none⟩ ⟨2, 7⟩).addChild 2 ⟨Kind.simpleName, some "x"⟩ ⟨3, 4⟩).addChild 2
    ⟨Kind.simpleName, some "z"⟩ ⟨5, 6⟩ |>.finish

/-- If every similarity will do, the call is paired with the one further down, below the partner of its
block. -/
theorem guarded_call_below_block :
    (1, 2) ∈ (align { similarityThreshold := 0 } callInBlock guardedCall root root).pairs ∧
    (1, 2) ∉ (pairRoots { similarityThreshold := 0 } callInBlock guardedCall root root).pairs ∧
    callInBlock.kind 1 = guardedCall.kind 2 ∧ 2 ∈ guardedCall.strictDescendants 0 := by
  have hmem : (1, 2) ∈ (align { similarityThreshold := 0 } callInBlock guardedCall root root).pairs := by
    decide +kernel
  have hnew :
      (1, 2) ∉ (pairRoots { similarityThreshold := 0 } callInBlock guardedCall root root).pairs := by
    decide +kernel
  obtain ⟨hkind, hbelow⟩ := (align_respects_parents _ callInBlock guardedCall root root).2 1 2 hmem hnew
  exact ⟨hmem, hnew, hkind, hbelow 0 0 (by decide +kernel) (by decide +kernel)⟩

/-! ### Nothing obvious is left -/

/-- Whether two children of partners belong together at first sight: they are of one kind, and the first is
an inner node at the position of the second, or both are leaves with the same label or position. -/
def StandAlike (t u : Tree) (c d : Nat) : Prop :=
  t.kind c = u.kind d ∧
    (t.isLeaf c = false ∧ t.position c = u.position d ∨
      t.isLeaf c = true ∧ u.isLeaf d = true ∧
        (t.label c = u.label d ∨ t.position c = u.position d))

variable {c d q : Nat}

/-- A visit pairs an inner node if a free child of the partner of its parent stands at the same spot. -/
theorem hasSource_pairInner (root : Nat) (hleaf : t.isLeaf c = false)
    (hq : parentPartner? t m c = some q) (hd : d ∈ u.children q) (hfree : m.hasTarget d = false)
    (hkind : t.kind c = u.kind d) (hposition : t.position c = u.position d) :
    (pairInner config t u root m c).hasSource c = true := by
  have hspot : (sameSpot? t u m c).isSome = true := by
    rw [sameSpot?, hq, Option.bind_some, List.find?_isSome]
    exact ⟨d, hd, by simp [hfree, hkind, hposition]⟩
  obtain ⟨y, hy⟩ := Option.isSome_iff_exists.1 hspot
  unfold pairInner
  by_cases hsource : m.hasSource c = true
  · simp [hsource]
  · simp [hsource, hleaf, hy, hasSource_pair_self]

/-- A visit pairs a leaf if a free leaf under the partner of its parent has the same label or position. -/
theorem hasSource_pairLeaf (hleaf : t.isLeaf c = true) (hq : parentPartner? t m c = some q)
    (hd : d ∈ u.children q) (hfree : m.hasTarget d = false) (hleafd : u.isLeaf d = true)
    (hkind : t.kind c = u.kind d)
    (halike : t.label c = u.label d ∨ t.position c = u.position d) :
    (pairLeaf t u m c).hasSource c = true := by
  have hpartner : (leafPartner? t u m c).isSome = true := by
    rw [leafPartner?, hq, Option.bind_some]
    simp only [Option.isSome_or, Bool.or_eq_true, List.find?_isSome]
    have hmem : d ∈ (u.children q).filter fun y =>
        !m.hasTarget y && u.isLeaf y && u.kind y == t.kind c := by
      simp [hd, hfree, hleafd, hkind]
    rcases halike with hlabel | hposition
    · exact .inr (.inl ⟨d, hmem, by simp [hlabel]⟩)
    · exact .inr (.inr ⟨d, hmem, by simp [hposition]⟩)
  obtain ⟨y, hy⟩ := Option.isSome_iff_exists.1 hpartner
  unfold pairLeaf
  by_cases hsource : m.hasSource c = true
  · simp [hsource]
  · simp [hsource, hleaf, hy, hasSource_pair_self]

/-- Of the children of two partners, no two are left free that stand alike. -/
theorem align_locally_maximal {p : Nat} (h : (p, q) ∈ (align config t u a b).pairs) :
    ¬ ∃ c ∈ t.children p, ∃ d ∈ u.children q, (align config t u a b).hasSource c = false ∧
      (align config t u a b).hasTarget d = false ∧ StandAlike t u c d := by
  rintro ⟨c, hc, d, hd, hcfree, hdfree, hkind, halike⟩
  have hpartner : parentPartner? t (align config t u a b) c = some q :=
    Option.bind_eq_some_iff.2
      ⟨p, mem_children.1 hc, ((oneToOne_align config t u a b).target?_eq_some_iff p q).2 h⟩
  have hbelow : c ∈ t.strictDescendants a := by
    rcases mem_descendants_iff.1 (linkWithin_of_mem_align h).1 with rfl | hp
    · exact mem_strictDescendants_iff.2 ⟨c, hc, self_mem_descendants t c⟩
    · exact mem_strictDescendants_trans (mem_strictDescendants_iff.2 hp) (mem_descendants_of_child hc)
  have hroot : c ≠ a := fun heq => not_mem_strictDescendants_self t a (heq ▸ hbelow)
  obtain ⟨before, after, hsplit⟩ := List.append_of_mem (mem_descendants_of_strict hbelow)
  -- the first pass pairs inner nodes and the second one leaves; either way `c` was paired at its visit
  suffices htaken : (align config t u a b).hasSource c = true by
    rw [hcfree] at htaken
    cases htaken
  have hleaves : Grows (fun _ => True) (pairedInner config t u a b) (align config t u a b) :=
    (isVisit_pairLeaf t u).foldl_keeps _ _
  rcases halike with ⟨hleaf, hposition⟩ | ⟨hleaf, hleafd, halike⟩
  · obtain ⟨hvisit, hrest⟩ :=
      (isVisit_pairInner config t u b).grows_on hsplit (pairRoots config t u a b)
    have hon := hrest.trans hleaves
    have hq := (parentPartner?_inner_visit hsplit hroot).trans hpartner
    have hfree := (hvisit.trans hon).target_was_free hdfree
    exact hon.hasSource (hasSource_pairInner b hleaf hq hd hfree hkind hposition)
  · obtain ⟨hvisit, hon⟩ := (isVisit_pairLeaf t u).grows_on hsplit (pairedInner config t u a b)
    have hq := (parentPartner?_leaf_visit before c).trans hpartner
    have hfree := (hvisit.trans hon).target_was_free hdfree
    exact hon.hasSource (hasSource_pairLeaf hleaf hq hd hfree hleafd hkind halike)

/-- A block that returns before it calls something else. -/
def callAfterReturn : Tree :=
  (((single ⟨Kind.block, none⟩ ⟨0, 9⟩).addChild 0 ⟨Kind.returnStatement, none⟩ ⟨1, 2⟩).addChild 0
    ⟨Kind.expressionStatement, none⟩ ⟨3, 8⟩).addChild 2 ⟨Kind.simpleName, some "z"⟩ ⟨4, 5⟩ |>.finish

/-- Two calls that share nothing are left free under paired blocks, so they do not stand at one spot. -/
theorem calls_left_free :
    (align {} callInBlock callAfterReturn root root).pairs = [(0, 0)] ∧
    1 ∈ callInBlock.children 0 ∧ 2 ∈ callAfterReturn.children 0 ∧
    callInBlock.kind 1 = callAfterReturn.kind 2 ∧ ¬ StandAlike callInBlock callAfterReturn 1 2 := by
  have hpairs : (align {} callInBlock callAfterReturn root root).pairs = [(0, 0)] := by decide +kernel
  have hc : 1 ∈ callInBlock.children 0 := by decide +kernel
  have hd : 2 ∈ callAfterReturn.children 0 := by decide +kernel
  refine ⟨hpairs, hc, hd, by decide +kernel, fun halike => ?_⟩
  exact align_locally_maximal (hpairs ▸ List.mem_singleton_self (0, 0))
    ⟨1, hc, 2, hd, by decide +kernel, by decide +kernel, halike⟩

end Counterpart.Alignment
