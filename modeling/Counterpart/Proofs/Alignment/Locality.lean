import Counterpart.Proofs.Alignment.Settling
import Counterpart.Proofs.Tree.Renaming

/-!
# Alignments are local

An alignment looks at nothing but the two subtrees, and at node numbers only to tell nodes apart. To say so,
two tasks are compared that differ in the numbers and in what surrounds the subtrees (`Relocates`). Every
step of one alignment is then a step of the other on renamed nodes: their matchings stay mirror images
(`Mirrors`) from the empty one through both parts, so that the pairs of one are the renamed pairs of the
other, in the same order (`align_local`). Parents, positions and ancestors are asked for only below the two
roots, since these have partners by the time such questions come up.
-/

namespace Counterpart.Alignment

open Matching Counterpart.Tree

/-- Two tasks of alignment that differ in names: `φ` and `ψ` carry the subtrees of one over to those of the
other, and keep the stored heights of source nodes and what the stored digests of source and target nodes
say about each other. -/
structure Relocates (φ ψ : Nat → Nat) (t u : Tree) (a b : Nat) (t' u' : Tree) (a' b' : Nat) : Prop where
  source : Carries φ t a t' a'
  target : Carries ψ u b u' b'
  height_map : ∀ x ∈ t.descendants a, t'.height (φ x) = t.height x
  digest_eq_iff : ∀ x ∈ t.descendants a, ∀ y ∈ u.descendants b,
    (t'.digest (φ x) = u'.digest (ψ y) ↔ t.digest x = u.digest y)

/-- The second matching holds the renamed pairs of the first one, all of which lie within the two subtrees. -/
structure Mirrors (φ ψ : Nat → Nat) (t u : Tree) (a b : Nat) (m m' : Matching) : Prop where
  pairs_eq : m'.pairs = m.pairs.map (Prod.map φ ψ)
  target?_eq : ∀ x ∈ t.descendants a, m'.target? (φ x) = (m.target? x).map ψ
  source?_eq : ∀ y ∈ u.descendants b, m'.source? (ψ y) = (m.source? y).map φ
  target_mem : ∀ x y, m.target? x = some y → y ∈ u.descendants b
  source_mem : ∀ x y, m.source? y = some x → x ∈ t.descendants a

variable {φ ψ : Nat → Nat} {t u t' u' : Tree} {a b a' b' : Nat} {m m' : Matching} {x y : Nat}

/-! ### Matchings -/

theorem mirrors_empty (φ ψ : Nat → Nat) (t u : Tree) (a b : Nat) :
    Mirrors φ ψ t u a b .empty .empty where
  pairs_eq := by simp
  target?_eq := by simp
  source?_eq := by simp
  target_mem := by simp
  source_mem := by simp

theorem Mirrors.hasSource_eq (hm : Mirrors φ ψ t u a b m m') (hx : x ∈ t.descendants a) :
    m'.hasSource (φ x) = m.hasSource x := by
  rw [hasSource, hasSource, hm.target?_eq x hx, Option.isSome_map]

theorem Mirrors.hasTarget_eq (hm : Mirrors φ ψ t u a b m m') (hy : y ∈ u.descendants b) :
    m'.hasTarget (ψ y) = m.hasTarget y := by
  rw [hasTarget, hasTarget, hm.source?_eq y hy, Option.isSome_map]

theorem Mirrors.pair (h : Relocates φ ψ t u a b t' u' a' b') (hm : Mirrors φ ψ t u a b m m')
    (hx : x ∈ t.descendants a) (hy : y ∈ u.descendants b) :
    Mirrors φ ψ t u a b (m.pair x y) (m'.pair (φ x) (ψ y)) where
  pairs_eq := by simp [hm.pairs_eq]
  target?_eq := by
    intro z hz
    rw [target?_pair, target?_pair]
    by_cases hzx : z = x
    · simp [hzx]
    · simp [hzx, h.source.inj hz hx, hm.target?_eq z hz]
  source?_eq := by
    intro z hz
    rw [source?_pair, source?_pair]
    by_cases hzy : z = y
    · simp [hzy]
    · simp [hzy, h.target.inj hz hy, hm.source?_eq z hz]
  target_mem := by
    intro z w hw
    rw [target?_pair] at hw
    by_cases hzx : z = x
    · simp only [hzx, if_true, Option.some.injEq] at hw
      exact hw ▸ hy
    · rw [if_neg hzx] at hw
      exact hm.target_mem z w hw
  source_mem := by
    intro z w hw
    rw [source?_pair] at hw
    by_cases hwy : w = y
    · simp only [hwy, if_true, Option.some.injEq] at hw
      exact hw ▸ hx
    · rw [if_neg hwy] at hw
      exact hm.source_mem z w hw

/-! ### Top down -/

/-- Pairing an overlay of nodes within the subtrees goes along with renaming. -/
theorem pairOverlay_mirrors (h : Relocates φ ψ t u a b t' u' a' b') (r : Rose Link) :
    (∀ l ∈ r.preOrder, LinkWithin t u (a, b) l) → ∀ {m m' : Matching}, Mirrors φ ψ t u a b m m' →
      Mirrors φ ψ t u a b (pairOverlay m r) (pairOverlay m' (r.map (Prod.map φ ψ))) := by
  induction r using Rose.ind with
  | node l cs ih =>
    intro hwithin m m' hm
    rw [Rose.preOrder_node, ← List.flatMap_def] at hwithin
    obtain ⟨hl, hbelow⟩ := List.forall_mem_cons.1 hwithin
    -- the overlays below, the last one first
    have hlist : ∀ ds : List (Rose Link), (∀ d ∈ ds, d ∈ cs) → ∀ {m m' : Matching},
        Mirrors φ ψ t u a b m m' → Mirrors φ ψ t u a b (pairOverlays m ds)
          (pairOverlays m' (ds.map (Rose.map (Prod.map φ ψ)))) := by
      intro ds
      induction ds with
      | nil => exact fun _ _ _ hm => hm
      | cons d ds ihds =>
        intro hds m m' hm
        have hd := hds d List.mem_cons_self
        rw [List.map_cons, pairOverlays, pairOverlays]
        exact ih d hd (fun k hk => hbelow k (List.mem_flatMap.2 ⟨d, hd, hk⟩))
          (ihds (fun e he => hds e (List.mem_cons_of_mem d he)) hm)
    rw [Rose.map_node, pairOverlay, pairOverlay, Prod.map_fst, Prod.map_snd, hm.hasSource_eq hl.1,
      hm.hasTarget_eq hl.2]
    split
    · exact hm
    · exact hlist cs (fun _ hd => hd) (hm.pair h hl.1 hl.2)

theorem pairSubtrees_mirrors (h : Relocates φ ψ t u a b t' u' a' b') (hm : Mirrors φ ψ t u a b m m')
    {l : Link} (hl : LinkWithin t u (a, b) l) :
    Mirrors φ ψ t u a b (pairSubtrees t u m l.1 l.2) (pairSubtrees t' u' m' (φ l.1) (ψ l.2)) := by
  unfold pairSubtrees
  rw [subtree_map h.source.children_map hl.1, subtree_map h.target.children_map hl.2, Rose.map_zip]
  exact pairOverlay_mirrors h _ (fun k hk => hl.trans (linkWithin_of_mem_overlay (mem_preOrder_zip.1 hk)))
    hm

theorem childCandidates_map (h : Relocates φ ψ t u a b t' u' a' b') (hm : Mirrors φ ψ t u a b m m')
    {l : Link} (hl : LinkWithin t u (a, b) l) :
    childCandidates t' u' m' (φ l.1) (ψ l.2) =
      (childCandidates t u m l.1 l.2).map (Prod.map φ ψ) := by
  have hfree : (u'.children (ψ l.2)).filter (fun d => !m'.hasTarget d) =
      ((u.children l.2).filter fun d => !m.hasTarget d).map ψ := by
    rw [h.target.children_map l.2 hl.2]
    refine filter_map_eq fun d hd => ?_
    rw [hm.hasTarget_eq (mem_descendants_trans hl.2 (mem_descendants_of_child hd))]
  have hcouples : ((t'.children (φ l.1)).flatMap fun c =>
      ((u'.children (ψ l.2)).filter fun d => !m'.hasTarget d).map fun d => (c, d)) =
      ((t.children l.1).flatMap fun c =>
        ((u.children l.2).filter fun d => !m.hasTarget d).map fun d => (c, d)).map (Prod.map φ ψ) := by
    rw [hfree, h.source.children_map l.1 hl.1, List.flatMap_map, List.map_flatMap]
    simp only [List.map_map]
    rfl
  -- the couples are children of nodes within the subtrees, so their digests compare as they did
  have hwithin : ∀ k ∈ (t.children l.1).flatMap fun c =>
      ((u.children l.2).filter fun d => !m.hasTarget d).map fun d => (c, d),
      LinkWithin t u (a, b) k := by
    intro k hk
    obtain ⟨c, hc, hk⟩ := List.mem_flatMap.1 hk
    obtain ⟨d, hd, rfl⟩ := List.mem_map.1 hk
    exact hl.trans (linkWithin_of_children hc (List.mem_filter.1 hd).1)
  unfold childCandidates
  dsimp only
  rw [hcouples, List.map_append]
  congr 1
  · refine filter_map_eq fun k hk => ?_
    have hdigest := h.digest_eq_iff k.1 (hwithin k hk).1 k.2 (hwithin k hk).2
    simp [hdigest]
  · refine filter_map_eq fun k hk => ?_
    have hdigest := h.digest_eq_iff k.1 (hwithin k hk).1 k.2 (hwithin k hk).2
    simp [hdigest, h.source.kind_map k.1 (hwithin k hk).1, h.target.kind_map k.2 (hwithin k hk).2]

theorem examine_mirrors (config : AlignmentConfig) (h : Relocates φ ψ t u a b t' u' a' b')
    (hm : Mirrors φ ψ t u a b m m') {l : Link} (hl : LinkWithin t u (a, b) l) :
    Mirrors φ ψ t u a b (examine config t u m l).1 (examine config t' u' m' (Prod.map φ ψ l)).1 ∧
      (examine config t' u' m' (Prod.map φ ψ l)).2 =
        (examine config t u m l).2.map (Prod.map φ ψ) := by
  unfold examine
  simp only [Prod.map_fst, Prod.map_snd, hm.hasSource_eq hl.1, hm.hasTarget_eq hl.2,
    h.height_map l.1 hl.1, h.source.kind_map l.1 hl.1, h.target.kind_map l.2 hl.2,
    h.digest_eq_iff l.1 hl.1 l.2 hl.2]
  split
  · exact ⟨hm, rfl⟩
  split
  · exact ⟨hm, rfl⟩
  split
  · exact ⟨pairSubtrees_mirrors h hm hl, rfl⟩
  · exact ⟨hm, childCandidates_map h hm hl⟩

/-- A sweep over renamed candidates goes through the same rounds. -/
theorem sweep_mirrors (config : AlignmentConfig) (h : Relocates φ ψ t u a b t' u' a' b') (bound : Nat)
    (hm : Mirrors φ ψ t u a b m m') (waiting : List Link)
    (hwaiting : ∀ l ∈ waiting, LinkWithin t u (a, b) l) :
    Mirrors φ ψ t u a b (sweep config t u bound m waiting)
      (sweep config t' u' bound m' (waiting.map (Prod.map φ ψ))) := by
  induction bound generalizing m m' waiting with
  | zero => exact hm
  | succ bound ih =>
    cases waiting with
    | nil => exact hm
    | cons l waiting =>
      obtain ⟨hl, hrest⟩ := List.forall_mem_cons.1 hwaiting
      obtain ⟨hseen, hnew⟩ := examine_mirrors config h hm hl
      rw [List.map_cons, sweep, sweep, hnew, ← List.map_append]
      refine ih hseen _ fun k hk => ?_
      rcases List.mem_append.1 hk with hk | hk
      · rcases examine_cases config t u m l with he | ⟨-, -, -, he⟩ | he
        · simp [he] at hk
        · simp [he] at hk
        · rw [he] at hk
          obtain ⟨hc, hd⟩ := mem_childCandidates hk
          exact hl.trans (linkWithin_of_children hc hd)
      · exact hrest k hk

theorem pairRoots_mirrors (config : AlignmentConfig) (h : Relocates φ ψ t u a b t' u' a' b') :
    Mirrors φ ψ t u a b (pairRoots config t u a b) (pairRoots config t' u' a' b') := by
  have hroots : LinkWithin t u (a, b) (a, b) := .refl t u (a, b)
  have htop : Mirrors φ ψ t u a b (topDown config t u a b) (topDown config t' u' a' b') := by
    have hsweep := sweep_mirrors config h ((t.descendants a).length * (u.descendants b).length)
      (mirrors_empty φ ψ t u a b) [(a, b)] (by simpa using hroots)
    unfold topDown
    rw [h.source.descendants_root, h.target.descendants_root, List.length_map, List.length_map]
    simpa [h.source.root_eq, h.target.root_eq] using hsweep
  have hsource := htop.hasSource_eq hroots.1
  have htarget := htop.hasTarget_eq hroots.2
  have hpair := htop.pair h hroots.1 hroots.2
  rw [h.source.root_eq] at hsource hpair
  rw [h.target.root_eq] at htarget hpair
  unfold pairRoots
  dsimp only
  rw [hsource, htarget]
  split
  · exact htop
  · exact hpair

/-! ### What is left -/

/-- The roots have partners: no visit pairs them again. -/
def RootsPaired (m : Matching) (a b : Nat) : Prop :=
  m.hasSource a = true ∧ m.hasTarget b = true

theorem parentPartner?_map (h : Relocates φ ψ t u a b t' u' a' b') (hm : Mirrors φ ψ t u a b m m')
    (hx : x ∈ t.descendants a) (hne : x ≠ a) :
    parentPartner? t' m' (φ x) = (parentPartner? t m x).map ψ := by
  obtain ⟨p, hp, hpa⟩ := Carries.exists_parent hx hne
  simp [parentPartner?, h.source.parent_map hx hne, hp, hm.target?_eq p hpa]

theorem Mirrors.parentPartner?_mem (hm : Mirrors φ ψ t u a b m m') {q : Nat}
    (hq : parentPartner? t m x = some q) : q ∈ u.descendants b := by
  obtain ⟨p, -, hpq⟩ := Option.bind_eq_some_iff.1 hq
  exact hm.target_mem p q hpq

/-- A child of a node within a subtree is within it and not its root. -/
theorem child_mem_and_ne {q : Nat} (hq : q ∈ u.descendants b) (hy : y ∈ u.children q) :
    y ∈ u.descendants b ∧ y ≠ b := by
  have habove := le_of_mem_descendants hq
  have hbelow := lt_of_parent (mem_children.1 hy)
  exact ⟨mem_descendants_trans hq (mem_descendants_of_child hy), by omega⟩

theorem sameSpot?_map (h : Relocates φ ψ t u a b t' u' a' b') (hm : Mirrors φ ψ t u a b m m')
    (hx : x ∈ t.descendants a) (hne : x ≠ a) :
    sameSpot? t' u' m' (φ x) = (sameSpot? t u m x).map ψ := by
  unfold sameSpot?
  rw [parentPartner?_map h hm hx hne]
  cases hq : parentPartner? t m x with
  | none => rfl
  | some q =>
    have hqb := hm.parentPartner?_mem hq
    rw [Option.map_some, Option.bind_some, Option.bind_some, h.target.children_map q hqb]
    refine find?_map_eq fun y hy => ?_
    obtain ⟨hyb, hyne⟩ := child_mem_and_ne hqb hy
    rw [hm.hasTarget_eq hyb, h.target.kind_map y hyb, h.source.kind_map x hx,
      h.target.position_map hyb hyne, h.source.position_map hx hne]

theorem leafPartner?_map (h : Relocates φ ψ t u a b t' u' a' b') (hm : Mirrors φ ψ t u a b m m')
    (hx : x ∈ t.descendants a) (hne : x ≠ a) :
    leafPartner? t' u' m' (φ x) = (leafPartner? t u m x).map ψ := by
  unfold leafPartner?
  rw [parentPartner?_map h hm hx hne]
  cases hq : parentPartner? t m x with
  | none => rfl
  | some q =>
    have hqb := hm.parentPartner?_mem hq
    have hfree : (u'.children (ψ q)).filter (fun y =>
        !m'.hasTarget y && u'.isLeaf y && u'.kind y == t'.kind (φ x)) =
        ((u.children q).filter fun y =>
          !m.hasTarget y && u.isLeaf y && u.kind y == t.kind x).map ψ := by
      rw [h.target.children_map q hqb]
      refine filter_map_eq fun y hy => ?_
      obtain ⟨hyb, -⟩ := child_mem_and_ne hqb hy
      rw [hm.hasTarget_eq hyb, h.target.isLeaf_map hyb, h.target.kind_map y hyb,
        h.source.kind_map x hx]
    have hmem : ∀ y ∈ (u.children q).filter fun y =>
        !m.hasTarget y && u.isLeaf y && u.kind y == t.kind x, y ∈ u.descendants b ∧ y ≠ b :=
      fun y hy => child_mem_and_ne hqb (List.mem_filter.1 hy).1
    simp only [Option.map_some, Option.bind_some, hfree]
    generalize (u.children q).filter (fun y =>
      !m.hasTarget y && u.isLeaf y && u.kind y == t.kind x) = free at hmem
    have hlabel : ∀ y ∈ free, (u'.label (ψ y) == t'.label (φ x)) = (u.label y == t.label x) := by
      intro y hy
      rw [h.target.label_map y (hmem y hy).1, h.source.label_map x hx]
    have hposition : ∀ y ∈ free,
        (u'.position (ψ y) == t'.position (φ x)) = (u.position y == t.position x) := by
      intro y hy
      rw [h.target.position_map (hmem y hy).1 (hmem y hy).2, h.source.position_map hx hne]
    have hboth : ∀ y ∈ free,
        (u'.position (ψ y) == t'.position (φ x) && u'.label (ψ y) == t'.label (φ x)) =
          (u.position y == t.position x && u.label y == t.label x) := by
      intro y hy
      rw [hposition y hy, hlabel y hy]
    rw [find?_map_eq hboth, find?_map_eq hlabel, find?_map_eq hposition, Option.map_or, Option.map_or]

/-! ### Similar nodes -/

theorem respectsParents_map (h : Relocates φ ψ t u a b t' u' a' b') (hm : Mirrors φ ψ t u a b m m')
    (hx : x ∈ t.descendants a) (hxne : x ≠ a) (hy : y ∈ u.descendants b) (hyne : y ≠ b) :
    respectsParents t' u' m' (φ x) (ψ y) = respectsParents t u m x y := by
  obtain ⟨p, hp, hpa⟩ := Carries.exists_parent hx hxne
  obtain ⟨q, hq, hqb⟩ := Carries.exists_parent hy hyne
  unfold respectsParents
  simp only [h.source.parent_map hx hxne, h.target.parent_map hy hyne, hp, hq, Option.map_some,
    Option.bind_some, hm.target?_eq p hpa, hm.source?_eq q hqb, Option.all_map]
  congr 1
  · cases hpartner : m.target? p with
    | none => rfl
    | some z => exact h.target.isWithin_map hy (hm.target_mem p z hpartner)
  · cases hpartner : m.source? q with
    | none => rfl
    | some z => exact h.source.isWithin_map hx (hm.source_mem z q hpartner)

theorem similarity_map (h : Relocates φ ψ t u a b t' u' a' b') (hm : Mirrors φ ψ t u a b m m')
    (hx : x ∈ t.descendants a) (hy : y ∈ u.descendants b) :
    similarity t' u' m' (φ x) (ψ y) = similarity t u m x y := by
  have hshared : sharedBelow t' u' m' (φ x) (ψ y) = sharedBelow t u m x y := by
    unfold sharedBelow
    dsimp only
    rw [h.source.strictDescendants_map hx, h.target.strictDescendants_map hy, List.countP_map]
    refine List.countP_congr fun z hz => ?_
    have hza := mem_descendants_trans hx (mem_descendants_of_strict hz)
    rw [Function.comp_apply, hm.target?_eq z hza, Option.any_map]
    cases hpartner : m.target? z with
    | none => rfl
    | some w =>
      simp only [Option.any_some, List.contains_iff_mem]
      exact h.target.mem_map_iff
        (fun k hk => mem_descendants_trans hy (mem_descendants_of_strict hk))
        (hm.target_mem z w hpartner)
  unfold similarity
  rw [hshared, h.source.strictDescendants_map hx, h.target.strictDescendants_map hy, List.length_map,
    List.length_map]

theorem mostSimilar?_map (config : AlignmentConfig) (h : Relocates φ ψ t u a b t' u' a' b')
    (hm : Mirrors φ ψ t u a b m m') (hx : x ∈ t.descendants a) {candidates : List Nat}
    (hcandidates : ∀ y ∈ candidates, y ∈ u.descendants b) :
    mostSimilar? config t' u' m' (φ x) (candidates.map ψ) =
      (mostSimilar? config t u m x candidates).map ψ := by
  have hnode : ∀ best : Option (Nat × Float),
      (best.map (·.1)).map ψ = (best.map (Prod.map ψ id)).map (·.1) := by
    intro best
    rw [Option.map_map, Option.map_map]
    rfl
  unfold mostSimilar?
  dsimp only
  rw [hnode]
  -- the best so far is the renamed best so far, with the same score
  refine congrArg (Option.map _)
    (foldl_map_eq (g := Option.map (Prod.map ψ id)) (fun best y hy => ?_) none)
  simp only [similarity_map h hm hx (hcandidates y hy), Option.all_map, Prod.map_snd, id_eq]
  split <;> rfl

theorem innerCandidates_map (h : Relocates φ ψ t u a b t' u' a' b') (hm : Mirrors φ ψ t u a b m m')
    (hroots : RootsPaired m a b) (hx : x ∈ t.descendants a) (hne : x ≠ a) :
    innerCandidates t' u' m' b' (φ x) = (innerCandidates t u m b x).map ψ := by
  unfold innerCandidates
  rw [h.target.descendants_root]
  refine filter_map_eq fun y hy => ?_
  rw [hm.hasTarget_eq hy, h.target.isLeaf_map hy, h.target.kind_map y hy, h.source.kind_map x hx]
  by_cases hyb : y = b
  · simp [hyb, hroots.2]
  · rw [respectsParents_map h hm hx hne hy hyb]

/-! ### Both passes -/

theorem RootsPaired.grows {P : Link → Prop} (hroots : RootsPaired m a b) {m₁ : Matching}
    (hgrows : Grows P m m₁) : RootsPaired m₁ a b :=
  ⟨hgrows.hasSource hroots.1, hgrows.hasTarget hroots.2⟩

/-- Pairing a node with the partner that was found for it, if any, goes along with renaming. -/
theorem Mirrors.pairFound (h : Relocates φ ψ t u a b t' u' a' b') (hm : Mirrors φ ψ t u a b m m')
    (hx : x ∈ t.descendants a) (found : Option Nat) :
    (∀ y, found = some y → y ∈ u.descendants b) →
      Mirrors φ ψ t u a b (match found with | some y => m.pair x y | none => m)
        (match found.map ψ with | some y => m'.pair (φ x) y | none => m') := by
  intro hfound
  cases found with
  | none => exact hm
  | some y => exact hm.pair h hx (hfound y rfl)

theorem pairInner_mirrors (config : AlignmentConfig) (h : Relocates φ ψ t u a b t' u' a' b')
    (hm : Mirrors φ ψ t u a b m m') (hroots : RootsPaired m a b) (hx : x ∈ t.descendants a) :
    Mirrors φ ψ t u a b (pairInner config t u b m x) (pairInner config t' u' b' m' (φ x)) := by
  unfold pairInner
  rw [hm.hasSource_eq hx, h.source.isLeaf_map hx]
  split
  · exact hm
  · next hfree =>
    have hne : x ≠ a := by
      rintro rfl
      simp [hroots.1] at hfree
    have hwithin : ∀ y ∈ innerCandidates t u m b x, y ∈ u.descendants b := fun y hy =>
      (mem_innerCandidates.1 hy).1
    rw [sameSpot?_map h hm hx hne, innerCandidates_map h hm hroots hx hne,
      mostSimilar?_map config h hm hx hwithin, ← Option.map_or]
    refine hm.pairFound h hx _ fun y hy => ?_
    rcases Option.or_eq_some_iff.1 hy with hy | ⟨-, hy⟩
    · obtain ⟨⟨q, hq, hyq⟩, -⟩ := sameSpot?_spec hy
      exact (child_mem_and_ne (hm.parentPartner?_mem hq) hyq).1
    · exact hwithin y (mem_of_mostSimilar? hy)

theorem pairLeaf_mirrors (h : Relocates φ ψ t u a b t' u' a' b') (hm : Mirrors φ ψ t u a b m m')
    (hroots : RootsPaired m a b) (hx : x ∈ t.descendants a) :
    Mirrors φ ψ t u a b (pairLeaf t u m x) (pairLeaf t' u' m' (φ x)) := by
  unfold pairLeaf
  rw [hm.hasSource_eq hx, h.source.isLeaf_map hx]
  split
  · exact hm
  · next hfree =>
    have hne : x ≠ a := by
      rintro rfl
      simp [hroots.1] at hfree
    rw [leafPartner?_map h hm hx hne]
    refine hm.pairFound h hx _ fun y hy => ?_
    obtain ⟨⟨q, hq, hyq⟩, -⟩ := leafPartner?_spec hy
    exact (child_mem_and_ne (hm.parentPartner?_mem hq) hyq).1

/-- A pass whose rounds go along with renaming does so as a whole. -/
theorem foldl_mirrors {leaf : Bool} {f f' : Matching → Nat → Matching} (hf : IsVisit t u leaf f)
    (hround : ∀ x ∈ t.descendants a, ∀ m m', Mirrors φ ψ t u a b m m' → RootsPaired m a b →
      Mirrors φ ψ t u a b (f m x) (f' m' (φ x)))
    (hm : Mirrors φ ψ t u a b m m') (hroots : RootsPaired m a b) (xs : List Nat)
    (hxs : ∀ x ∈ xs, x ∈ t.descendants a) :
    Mirrors φ ψ t u a b (xs.foldl f m) ((xs.map φ).foldl f' m') := by
  induction xs generalizing m m' with
  | nil => exact hm
  | cons x xs ih =>
    obtain ⟨hx, hrest⟩ := List.forall_mem_cons.1 hxs
    exact ih (hround x hx m m' hm hroots) (hroots.grows (hf.grows m x)) hrest

/-- An alignment depends on the two subtrees alone: carry them over to other trees, keeping the order of
children, kinds, labels, stored heights and what stored digests say, and it carries over pair by pair. -/
theorem align_local (config : AlignmentConfig) (h : Relocates φ ψ t u a b t' u' a' b') :
    (align config t' u' a' b').pairs =
      (align config t u a b).pairs.map fun l => (φ l.1, ψ l.2) := by
  have hstart := pairRoots_mirrors config h
  have hmem := mem_pairRoots config t u a b
  have hone := oneToOne_pairRoots config t u a b
  have hroots : RootsPaired (pairRoots config t u a b) a b :=
    ⟨hone.hasSource_iff.2 ⟨b, hmem⟩, hone.hasTarget_iff.2 ⟨a, hmem⟩⟩
  have hinner := foldl_mirrors (isVisit_pairInner config t u b)
    (fun x hx m m' hm hroots => pairInner_mirrors config h hm hroots hx) hstart hroots
    (t.descendants a) fun _ hx => hx
  have hleaves := foldl_mirrors (isVisit_pairLeaf t u)
    (fun x hx m m' hm hroots => pairLeaf_mirrors h hm hroots hx) hinner
    (hroots.grows (pairedInner_grows config t u a b)) (t.descendants a) fun _ hx => hx
  rw [← h.source.descendants_root] at hleaves
  exact hleaves.pairs_eq

/-- The block that holds a call, in a file after an import, where other nodes were made in between. -/
def callInFile : Tree :=
  ((((((single ⟨Kind.compilationUnit, none⟩ ⟨0, 19⟩).addChild 0 ⟨Kind.importDeclaration, none⟩
    ⟨1, 5⟩).addChild 0 ⟨Kind.block, none⟩ ⟨6, 18⟩).addChild 2 ⟨Kind.expressionStatement, none⟩
    ⟨7, 17⟩).addChild 1 ⟨Kind.simpleName, some "x"⟩ ⟨2, 4⟩).addChild 3 ⟨Kind.simpleName, some "x"⟩
    ⟨8, 9⟩).addChild 3 ⟨Kind.simpleName, some "y"⟩ ⟨10, 11⟩ |>.finish

/-- The guarded call as the body of a method. -/
def guardedInMethod : Tree :=
  ((((((single ⟨Kind.methodDeclaration, none⟩ ⟨0, 19⟩).addChild 0 ⟨Kind.modifier, some "public"⟩
    ⟨1, 5⟩).addChild 0 ⟨Kind.block, none⟩ ⟨6, 18⟩).addChild 2 ⟨Kind.ifStatement, none⟩ ⟨7, 17⟩).addChild 3
    ⟨Kind.expressionStatement, none⟩ ⟨8, 16⟩).addChild 4 ⟨Kind.simpleName, some "x"⟩ ⟨9, 10⟩).addChild 4
    ⟨Kind.simpleName, some "z"⟩ ⟨11, 12⟩ |>.finish

/-- The numbers of the block and of what it holds, in the file. -/
def intoFile (n : Nat) : Nat :=
  [2, 3, 5, 6].getD n 0

theorem relocates_call :
    Relocates intoFile (· + 2) callInBlock guardedCall root root callInFile guardedInMethod 2 2 where
  source := carries_of_children rfl (by decide +kernel) (by decide +kernel) (by decide +kernel)
  target := carries_of_children rfl (by decide +kernel) (by decide +kernel) (by decide +kernel)
  height_map := by decide +kernel
  digest_eq_iff := by decide +kernel

/-- In file and method the two blocks are aligned as they are on their own, with the numbers that their nodes
have there. -/
theorem call_aligned_in_file :
    (align { similarityThreshold := 0 } callInBlock guardedCall root root).pairs =
      [(0, 0), (1, 2), (2, 3), (3, 4)] ∧
    (align { similarityThreshold := 0 } callInFile guardedInMethod 2 2).pairs =
      [(2, 2), (3, 4), (5, 5), (6, 6)] := by
  have hpairs : (align { similarityThreshold := 0 } callInBlock guardedCall root root).pairs =
      [(0, 0), (1, 2), (2, 3), (3, 4)] := by decide +kernel
  exact ⟨hpairs, by rw [align_local _ relocates_call, hpairs]; rfl⟩

end Counterpart.Alignment
