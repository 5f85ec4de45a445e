import Counterpart.Alignment.Basic
import Counterpart.Proofs.Matching
import Counterpart.Proofs.Tree.Descent

/-!
# How an alignment grows

Every step of an alignment only pairs free nodes, and says of what sort the new pairs are: the
positions of an overlay of nodes with equal digests (`sweep_grows`), the two roots
(`pairRoots_grows`), or nodes of equal kind (`pairInner_grows`, `pairLeaf_grows`). Put together,
`align_grows` describes a whole alignment by `Eligible`.
-/

namespace Counterpart.Alignment

open Matching Counterpart.Tree

variable {config : AlignmentConfig} {t u : Tree}

/-! ### Overlays -/

theorem or_eq_false_of_not {x y : Bool} (h : ¬ (x || y) = true) : x = false ∧ y = false := by
  simpa using h

/-- What holds of pairing each overlay of a list holds of pairing them all, the last one first. -/
theorem pairOverlays_grows {P : Link → Prop} {cs : List (Rose Link)}
    (h : ∀ c ∈ cs, ∀ m, Grows P m (pairOverlay m c)) (m : Matching) :
    Grows P m (pairOverlays m cs) := by
  induction cs with
  | nil => exact .refl
  | cons c cs ih =>
    rw [pairOverlays]
    exact (ih fun d hd => h d (List.mem_cons_of_mem c hd)).trans (h c List.mem_cons_self _)

/-- Pairing an overlay pairs nothing but its positions. -/
theorem pairOverlay_grows (r : Rose Link) (m : Matching) :
    Grows (· ∈ r.preOrder) m (pairOverlay m r) := by
  induction r using Rose.ind generalizing m with
  | node l cs ih =>
    rw [pairOverlay, Rose.preOrder_node]
    split
    · exact .refl
    · next hfree =>
      obtain ⟨hs, hd⟩ := or_eq_false_of_not hfree
      have hroot : Grows (· ∈ l :: (cs.map Rose.preOrder).flatten) m (m.pair l.1 l.2) :=
        .pair .refl hs hd List.mem_cons_self
      refine hroot.trans (pairOverlays_grows (fun c hc m' => (ih c hc m').mono ?_) _)
      intro k hk
      exact List.mem_cons_of_mem l (List.mem_flatten.2 ⟨c.preOrder, List.mem_map_of_mem hc, hk⟩)

theorem pairSubtrees_grows (m : Matching) (a b : Nat) :
    Grows (· ∈ t.overlay u a b) m (pairSubtrees t u m a b) :=
  (pairOverlay_grows _ m).mono fun _ hl => mem_preOrder_zip.1 hl

/-- Two subtrees with free roots are paired from their roots on. -/
theorem mem_pairSubtrees {m : Matching} {a b : Nat} (hs : m.hasSource a = false)
    (hd : m.hasTarget b = false) : (a, b) ∈ (pairSubtrees t u m a b).pairs := by
  rw [pairSubtrees, subtree_eq, subtree_eq, Rose.zip_node, pairOverlay, hs, hd]
  have hrest : ∀ cs, Grows (fun _ => True) (m.pair a b) (pairOverlays (m.pair a b) cs) := fun cs =>
    pairOverlays_grows (fun c _ m' => (pairOverlay_grows c m').mono fun _ _ => trivial) _
  refine (hrest _).mem_of_mem ?_
  rw [pairs_pair]
  exact List.mem_append_right _ List.mem_cons_self

/-! ### Top down -/

/-- A position of an overlay of two nodes with equal digests. -/
def Identical (t u : Tree) (l : Link) : Prop :=
  ∃ x y, t.digest x = u.digest y ∧ l ∈ t.overlay u x y

theorem mem_childCandidates {m : Matching} {a b : Nat} {l : Link}
    (h : l ∈ childCandidates t u m a b) : l.1 ∈ t.children a ∧ l.2 ∈ u.children b := by
  have hcouple : l ∈ (t.children a).flatMap fun c =>
      ((u.children b).filter fun d => !m.hasTarget d).map fun d => (c, d) := by
    rcases List.mem_append.1 h with h | h
    · exact (List.mem_filter.1 h).1
    · exact (List.mem_filter.1 h).1
  obtain ⟨c, hc, hl⟩ := List.mem_flatMap.1 hcouple
  obtain ⟨d, hd, rfl⟩ := List.mem_map.1 hl
  exact ⟨hc, (List.mem_filter.1 hd).1⟩

/-- What becomes of a candidate: it is dropped, its subtrees are paired since their digests are
equal, or pairs of its children take its place. -/
theorem examine_cases (config : AlignmentConfig) (t u : Tree) (m : Matching) (l : Link) :
    examine config t u m l = (m, []) ∨
    (m.hasSource l.1 = false ∧ m.hasTarget l.2 = false ∧ t.digest l.1 = u.digest l.2 ∧
      examine config t u m l = (pairSubtrees t u m l.1 l.2, [])) ∨
    examine config t u m l = (m, childCandidates t u m l.1 l.2) := by
  unfold examine
  by_cases hfree : (m.hasSource l.1 || m.hasTarget l.2) = true
  · exact .inl (if_pos hfree)
  rw [if_neg hfree]
  by_cases hheight : t.height l.1 < config.minHeight
  · exact .inl (if_pos hheight)
  rw [if_neg hheight]
  obtain ⟨hs, hd⟩ := or_eq_false_of_not hfree
  by_cases heq : t.digest l.1 = u.digest l.2 ∧ t.kind l.1 = u.kind l.2
  · exact .inr (.inl ⟨hs, hd, heq.1, if_pos heq⟩)
  · exact .inr (.inr (if_neg heq))

theorem sweep_nil (config : AlignmentConfig) (t u : Tree) (bound : Nat) (m : Matching) :
    sweep config t u bound m [] = m := by
  cases bound <;> rfl

/-- Let `W` hold of all candidates and pass down to children. Then a sweep only pairs positions of
identical subtrees at which `W` holds. -/
theorem sweep_grows (config : AlignmentConfig) {W : Link → Prop} (hW : PassesDown t u W)
    (bound : Nat) (m : Matching) (waiting : List Link) (h : ∀ l ∈ waiting, W l) :
    Grows (fun l => W l ∧ Identical t u l) m (sweep config t u bound m waiting) := by
  induction bound generalizing m waiting with
  | zero => exact .refl
  | succ bound ih =>
    cases waiting with
    | nil => exact .refl
    | cons l waiting =>
      have hl := h l List.mem_cons_self
      have hwaiting : ∀ k ∈ waiting, W k := fun k hk => h k (List.mem_cons_of_mem l hk)
      rw [sweep]
      rcases examine_cases config t u m l with he | ⟨-, -, hdig, he⟩ | he
      · rw [he]
        exact ih m waiting hwaiting
      · rw [he]
        refine ((pairSubtrees_grows m l.1 l.2).mono fun k hk => ?_).trans
          (ih _ waiting hwaiting)
        exact ⟨forall_mem_overlay hW hl k hk, l.1, l.2, hdig, hk⟩
      · rw [he]
        refine ih m _ fun k hk => ?_
        rcases List.mem_append.1 hk with hk | hk
        · obtain ⟨hc, hd⟩ := mem_childCandidates hk
          exact hW l hl k.1 hc k.2 hd
        · exact hwaiting k hk

theorem topDown_grows (config : AlignmentConfig) (t u : Tree) (a b : Nat) :
    Grows (fun l => LinkWithin t u (a, b) l ∧ Identical t u l) .empty (topDown config t u a b) := by
  refine sweep_grows config (passesDown_linkWithin t u (a, b)) _ _ _ fun l hl => ?_
  obtain rfl := List.mem_singleton.1 hl
  exact .refl t u (a, b)

/-- A sweep from the two roots pairs them with each other, or neither of them with anything: all
later candidates lie below. -/
theorem topDown_root (config : AlignmentConfig) (t u : Tree) (a b : Nat) :
    (a, b) ∈ (topDown config t u a b).pairs ∨
      (topDown config t u a b).hasSource a = false ∧
        (topDown config t u a b).hasTarget b = false := by
  have hpos : 0 < (t.descendants a).length * (u.descendants b).length :=
    Nat.mul_pos (List.length_pos_of_mem (self_mem_descendants t a))
      (List.length_pos_of_mem (self_mem_descendants u b))
  obtain ⟨bound, hbound⟩ : ∃ n, (t.descendants a).length * (u.descendants b).length = n + 1 :=
    ⟨_, (Nat.succ_pred_eq_of_pos hpos).symm⟩
  rw [topDown, hbound, sweep, List.append_nil]
  rcases examine_cases config t u .empty (a, b) with he | ⟨hs, hd, -, he⟩ | he
  · rw [he, sweep_nil]
    exact .inr ⟨rfl, rfl⟩
  · rw [he, sweep_nil]
    exact .inl (mem_pairSubtrees hs hd)
  · rw [he]
    -- Everything below the two roots passes down, and the roots are not below themselves.
    have hbelow : ∀ l ∈ childCandidates t u .empty a b,
        l.1 ∈ t.strictDescendants a ∧ l.2 ∈ u.strictDescendants b := by
      intro l hl
      obtain ⟨hc, hd⟩ := mem_childCandidates hl
      exact ⟨mem_strictDescendants_iff.2 ⟨l.1, hc, self_mem_descendants t l.1⟩,
        mem_strictDescendants_iff.2 ⟨l.2, hd, self_mem_descendants u l.2⟩⟩
    have hgrows := sweep_grows config (passesDown_strictDescendants t u a b) bound .empty _ hbelow
    have hone := hgrows.oneToOne oneToOne_empty
    refine .inr ⟨?_, ?_⟩
    · rw [← Bool.not_eq_true, hone.hasSource_iff]
      rintro ⟨d, hd⟩
      exact not_mem_strictDescendants_self t a (hgrows.forall_mem _ hd).1.1
    · rw [← Bool.not_eq_true, hone.hasTarget_iff]
      rintro ⟨s, hs⟩
      exact not_mem_strictDescendants_self u b (hgrows.forall_mem _ hs).1.2

/-! ### The roots and the rest -/

/-- What an alignment of the ends of `p` may pair: nodes at or below them which are these ends
themselves, stand at one position of identical subtrees, or are of equal kind. -/
def Eligible (t u : Tree) (p l : Link) : Prop :=
  LinkWithin t u p l ∧ (l = p ∨ Identical t u l ∨ t.kind l.1 = u.kind l.2)

theorem pairRoots_grows (config : AlignmentConfig) (t u : Tree) (a b : Nat) :
    Grows (Eligible t u (a, b)) .empty (pairRoots config t u a b) := by
  have htop : Grows (Eligible t u (a, b)) .empty (topDown config t u a b) :=
    (topDown_grows config t u a b).mono fun l hl => ⟨hl.1, .inr (.inl hl.2)⟩
  unfold pairRoots
  dsimp only
  split
  · exact htop
  · next hfree =>
    obtain ⟨hs, hd⟩ := or_eq_false_of_not hfree
    exact htop.pair hs hd ⟨.refl t u (a, b), .inl rfl⟩

theorem mem_pairRoots (config : AlignmentConfig) (t u : Tree) (a b : Nat) :
    (a, b) ∈ (pairRoots config t u a b).pairs := by
  unfold pairRoots
  dsimp only
  rcases topDown_root config t u a b with hmem | ⟨hs, hd⟩
  · have hone := (topDown_grows config t u a b).oneToOne oneToOne_empty
    rw [hone.hasSource_iff.2 ⟨b, hmem⟩]
    exact hmem
  · rw [hs, hd]
    exact pairs_pair _ a b ▸ List.mem_append_right _ List.mem_cons_self

/-- The children of the partner of any node lie within the target subtree. -/
theorem child_parentPartner_mem {p : Link} {m : Matching} (h : Grows (Eligible t u p) .empty m)
    {x y q : Nat} (hq : parentPartner? t m x = some q) (hy : y ∈ u.children q) :
    y ∈ u.descendants p.2 := by
  obtain ⟨z, -, hz⟩ := Option.bind_eq_some_iff.1 hq
  have hmem := ((h.oneToOne oneToOne_empty).target?_eq_some_iff z q).1 hz
  exact mem_descendants_trans (h.forall_mem _ hmem).1.2 (mem_descendants_of_child hy)

theorem mem_of_mostSimilar? {m : Matching} {x y : Nat} {candidates : List Nat}
    (h : mostSimilar? config t u m x candidates = some y) : y ∈ candidates := by
  obtain ⟨best, hbest, rfl⟩ := Option.map_eq_some_iff.1 h
  revert hbest
  -- The best so far comes from the start value or from the candidates seen.
  have hfold : ∀ (ns : List Nat) (init : Option (Nat × Float)),
      (∀ z, init = some z → z.1 ∈ candidates) → (∀ n ∈ ns, n ∈ candidates) →
      ∀ z, ns.foldl (fun (best : Option (Nat × Float)) b =>
        let score := similarity t u m x b
        if decide (config.similarityThreshold ≤ score) && best.all (fun w => decide (w.2 < score))
        then some (b, score) else best) init = some z → z.1 ∈ candidates := by
    intro ns
    induction ns with
    | nil => exact fun init hinit _ => hinit
    | cons n ns ih =>
      intro init hinit hns
      rw [List.foldl_cons]
      refine ih _ ?_ fun k hk => hns k (List.mem_cons_of_mem n hk)
      intro z hz
      dsimp only at hz
      split at hz
      · obtain rfl := Option.some.inj hz
        exact hns n List.mem_cons_self
      · exact hinit z hz
  exact hfold candidates none (fun z hz => nomatch hz) (fun n hn => hn) best

theorem sameSpot?_spec {m : Matching} {x y : Nat} (h : sameSpot? t u m x = some y) :
    (∃ q, parentPartner? t m x = some q ∧ y ∈ u.children q) ∧ m.hasTarget y = false ∧
      u.kind y = t.kind x ∧ u.position y = t.position x := by
  obtain ⟨q, hq, hfind⟩ := Option.bind_eq_some_iff.1 h
  have hy := List.mem_of_find?_eq_some hfind
  have hp := List.find?_some hfind
  simp only [Bool.and_eq_true, Bool.not_eq_true', beq_iff_eq] at hp
  exact ⟨⟨q, hq, hy⟩, hp.1.1, hp.1.2, hp.2⟩

theorem mem_innerCandidates {m : Matching} {root x y : Nat} :
    y ∈ innerCandidates t u m root x ↔ y ∈ u.descendants root ∧ m.hasTarget y = false ∧
      u.isLeaf y = false ∧ u.kind y = t.kind x ∧ respectsParents t u m x y = true := by
  simp only [innerCandidates, List.mem_filter, Bool.and_eq_true, Bool.not_eq_true', beq_iff_eq,
    and_assoc]

theorem leafPartner?_spec {m : Matching} {x y : Nat} (h : leafPartner? t u m x = some y) :
    (∃ q, parentPartner? t m x = some q ∧ y ∈ u.children q) ∧ m.hasTarget y = false ∧
      u.isLeaf y = true ∧ u.kind y = t.kind x := by
  obtain ⟨q, hq, hfind⟩ := Option.bind_eq_some_iff.1 h
  have hfree : y ∈ (u.children q).filter fun b =>
      !m.hasTarget b && u.isLeaf b && u.kind b == t.kind x := by
    rcases Option.or_eq_some_iff.1 hfind with hf | ⟨-, hfind⟩
    · exact List.mem_of_find?_eq_some hf
    rcases Option.or_eq_some_iff.1 hfind with hf | ⟨-, hf⟩
    · exact List.mem_of_find?_eq_some hf
    · exact List.mem_of_find?_eq_some hf
  obtain ⟨hy, hp⟩ := List.mem_filter.1 hfree
  simp only [Bool.and_eq_true, Bool.not_eq_true', beq_iff_eq] at hp
  exact ⟨⟨q, hq, hy⟩, hp.1.1, hp.1.2, hp.2⟩

variable {a b : Nat} {m : Matching}

theorem pairInner_grows (h : Grows (Eligible t u (a, b)) .empty m) {x : Nat}
    (hx : x ∈ t.descendants a) :
    Grows (Eligible t u (a, b)) m (pairInner config t u b m x) := by
  unfold pairInner
  split
  · exact .refl
  · next hfree =>
    obtain ⟨hs, -⟩ := or_eq_false_of_not hfree
    split
    · next y hy =>
      rcases Option.or_eq_some_iff.1 hy with hy | ⟨-, hy⟩
      · obtain ⟨⟨q, hq, hyq⟩, hd, hkind, -⟩ := sameSpot?_spec hy
        exact .pair .refl hs hd ⟨⟨hx, child_parentPartner_mem h hq hyq⟩, .inr (.inr hkind.symm)⟩
      · obtain ⟨hy, hd, -, hkind, -⟩ := mem_innerCandidates.1 (mem_of_mostSimilar? hy)
        exact .pair .refl hs hd ⟨⟨hx, hy⟩, .inr (.inr hkind.symm)⟩
    · exact .refl

theorem pairLeaf_grows (h : Grows (Eligible t u (a, b)) .empty m) {x : Nat}
    (hx : x ∈ t.descendants a) :
    Grows (Eligible t u (a, b)) m (pairLeaf t u m x) := by
  unfold pairLeaf
  split
  · exact .refl
  · next hfree =>
    obtain ⟨hs, -⟩ := or_eq_false_of_not hfree
    split
    · next y hy =>
      obtain ⟨⟨q, hq, hyq⟩, hd, -, hkind⟩ := leafPartner?_spec hy
      exact .pair .refl hs hd ⟨⟨hx, child_parentPartner_mem h hq hyq⟩, .inr (.inr hkind.symm)⟩
    · exact .refl

/-- From what grew top down, the rest grows on. -/
theorem bottomUp_grows (h : Grows (Eligible t u (a, b)) .empty m) :
    Grows (Eligible t u (a, b)) m (bottomUp config t u m a b) := by
  have hinner : Grows (Eligible t u (a, b)) m
      ((t.descendants a).foldl (pairInner config t u b) m) :=
    .foldl fun x hx m' h' => pairInner_grows (h.trans h') hx
  exact hinner.trans (.foldl fun x hx m' h' => pairLeaf_grows ((h.trans hinner).trans h') hx)

theorem align_grows (config : AlignmentConfig) (t u : Tree) (a b : Nat) :
    Grows (Eligible t u (a, b)) .empty (align config t u a b) :=
  (pairRoots_grows config t u a b).trans (bottomUp_grows (pairRoots_grows config t u a b))

theorem mem_align (config : AlignmentConfig) (t u : Tree) (a b : Nat) :
    (a, b) ∈ (align config t u a b).pairs :=
  (bottomUp_grows (pairRoots_grows config t u a b)).mem_of_mem (mem_pairRoots config t u a b)

theorem linkWithin_of_mem_align {l : Link} (h : l ∈ (align config t u a b).pairs) :
    LinkWithin t u (a, b) l :=
  ((align_grows config t u a b).forall_mem l h).1

end Counterpart.Alignment
