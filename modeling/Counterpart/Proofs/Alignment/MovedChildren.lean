import Counterpart.Proofs.Alignment.Identity
import Counterpart.Proofs.Tree.History
import Mathlib.Data.List.Perm.Subperm

/-!
# Children that moved

Two different subtrees may still share children: statements that were moved, repeated or had others put
between them. The first part of an alignment finds them. It looks at all couples of children with equal
digests before any other couple, row by row (`equalRow`): the first child of the source with every equal
child of the target in turn, then the second one, and so on. Within one class of equal children the rows
use up the children of the target one by one (`mem_lookAt_rows`), and rows of other classes only touch
subtrees of other children. So the first child of a class goes with the first one, the second with the
second, and `align_moved_children` says that each takes its whole subtree along.
-/

namespace Counterpart

theorem Measures.height_ofTerm (r : Term) : (Measures.ofTerm r).height = r.height := by
  induction r using Rose.ind with
  | node a cs ih =>
    rw [Measures.ofTerm_node, Rose.height_node]
    show ((cs.map ofTerm).map height).foldl max 0 + 1 = _
    rw [List.map_map]
    exact congrArg (fun ks => List.foldl max 0 ks + 1) (List.map_congr_left ih)

theorem Rose.height_lt_of_mem {α : Type} {a : α} {cs : List (Rose α)} {c : Rose α} (h : c ∈ cs) :
    c.height < (node a cs).height := by
  have hle : c.height ≤ (cs.map height).max?.getD 0 :=
    List.le_max?_getD_of_mem (List.mem_map_of_mem h)
  rw [height_node, List.foldl_max, Nat.zero_max]
  omega

theorem Tree.IsFinished.height_eq {t : Tree} (h : t.IsFinished) {n : Nat} (hn : n < t.count) :
    t.height n = (t.term n).height := by
  rw [height, h.measures_eq_ofTerm hn, Measures.height_ofTerm]

theorem Tree.length_children_lt (t : Tree) (n : Nat) :
    (t.children n).length < (t.descendants n).length := by
  have hsub : t.children n ⊆ t.strictDescendants n := fun c hc =>
    mem_strictDescendants_iff.2 ⟨c, hc, self_mem_descendants t c⟩
  have hle := (List.subperm_of_subset (nodup_children t n) hsub).length_le
  rw [descendants_eq, ← strictDescendants_eq, List.length_cons]
  omega

/-! ### Free nodes -/

namespace Matching

/-- Neither end of a link has a partner. -/
def Free (m : Matching) (l : Link) : Prop :=
  m.hasSource l.1 = false ∧ m.hasTarget l.2 = false

end Matching

namespace Alignment

open Matching Counterpart.Tree

variable {config : AlignmentConfig} {t u : Tree} {a b : Nat} {m : Matching}

/-- Links that have no end in common. -/
def Apart (k l : Link) : Prop := k.1 ≠ l.1 ∧ k.2 ≠ l.2

theorem pairOverlays_grows_freely (cs : List (Rose Link)) (m : Matching) :
    Grows (fun _ => True) m (pairOverlays m cs) :=
  pairOverlays_grows (fun c _ m' => (pairOverlay_grows c m').mono fun _ _ => trivial) m

theorem mem_pairOverlays {cs : List (Rose Link)}
    (h : ∀ c ∈ cs, ∀ m : Matching, c.preOrder.Pairwise Apart → (∀ l ∈ c.preOrder, m.Free l) →
      ∀ l ∈ c.preOrder, l ∈ (pairOverlay m c).pairs)
    (m : Matching) (hapart : (cs.flatMap Rose.preOrder).Pairwise Apart)
    (hfree : ∀ l ∈ cs.flatMap Rose.preOrder, m.Free l) :
    ∀ l ∈ cs.flatMap Rose.preOrder, l ∈ (pairOverlays m cs).pairs := by
  induction cs with
  | nil => exact fun l hl => absurd hl List.not_mem_nil
  | cons c cs ih =>
    rw [List.flatMap_cons, List.pairwise_append] at hapart
    rw [List.flatMap_cons, List.forall_mem_append] at hfree
    obtain ⟨hc, hcs, hcross⟩ := hapart
    -- the later overlays come first, and take nothing that the first one needs
    have hgrows : Grows (· ∈ cs.flatMap Rose.preOrder) m (pairOverlays m cs) :=
      pairOverlays_grows (fun d hd m' => (pairOverlay_grows d m').mono fun l hl =>
        List.mem_flatMap.2 ⟨d, hd, hl⟩) m
    have hfree' : ∀ l ∈ c.preOrder, (pairOverlays m cs).Free l := fun l hl =>
      ⟨hgrows.source_free (hfree.1 l hl).1 fun k hk => (hcross l hl k hk).1.symm,
        hgrows.target_free (hfree.1 l hl).2 fun k hk => (hcross l hl k hk).2.symm⟩
    have hlater := ih (fun d hd => h d (List.mem_cons_of_mem c hd)) hcs hfree.2
    have hfirst := h c List.mem_cons_self (pairOverlays m cs) hc hfree'
    rw [List.flatMap_cons, List.forall_mem_append, pairOverlays]
    exact ⟨hfirst, fun l hl => (pairOverlay_grows c _).mem_of_mem (hlater l hl)⟩

/-- An overlay of free nodes is paired as a whole. -/
theorem mem_pairOverlay (r : Rose Link) (m : Matching) (hapart : r.preOrder.Pairwise Apart)
    (hfree : ∀ l ∈ r.preOrder, m.Free l) : ∀ l ∈ r.preOrder, l ∈ (pairOverlay m r).pairs := by
  induction r using Rose.ind generalizing m with
  | node k cs ih =>
    rw [Rose.preOrder_node, ← List.flatMap_def] at hapart hfree ⊢
    obtain ⟨hroot, hbelow⟩ := List.pairwise_cons.1 hapart
    obtain ⟨hk, hrest⟩ := List.forall_mem_cons.1 hfree
    have hnot : ¬ (m.hasSource k.1 || m.hasTarget k.2) = true := by simp [hk.1, hk.2]
    have hself : Grows (· = k) m (m.pair k.1 k.2) := .pair .refl hk.1 hk.2 rfl
    have hfree' : ∀ l ∈ cs.flatMap Rose.preOrder, (m.pair k.1 k.2).Free l := fun l hl =>
      ⟨hself.source_free (hrest l hl).1 fun j hj => hj ▸ (hroot l hl).1,
        hself.target_free (hrest l hl).2 fun j hj => hj ▸ (hroot l hl).2⟩
    rw [pairOverlay, if_neg hnot]
    refine List.forall_mem_cons.2
      ⟨(pairOverlays_grows_freely cs _).mem_of_mem ?_, mem_pairOverlays ih _ hbelow hfree'⟩
    rw [pairs_pair]
    exact List.mem_append_right _ List.mem_cons_self

theorem pairwise_apart_zip (h : t.term a = u.term b) :
    ((t.subtree a).zip (u.subtree b)).preOrder.Pairwise Apart := by
  rw [(Rose.preOrder_zip _ _ h).1, List.pairwise_iff_getElem]
  intro i j hi hj hij
  rw [List.length_zip, Nat.lt_min] at hi hj
  rw [List.getElem_zip, List.getElem_zip, Apart]
  exact ⟨fun heq => Nat.ne_of_lt hij ((nodup_descendants t a).getElem_inj_iff.1 heq),
    fun heq => Nat.ne_of_lt hij ((nodup_descendants u b).getElem_inj_iff.1 heq)⟩

/-- Two subtrees with the same term are paired as wholes if they are free. -/
theorem mem_pairSubtrees_of_free (h : t.term a = u.term b)
    (hs : ∀ x ∈ t.descendants a, m.hasSource x = false)
    (hd : ∀ y ∈ u.descendants b, m.hasTarget y = false) :
    ∀ l ∈ t.overlay u a b, l ∈ (pairSubtrees t u m a b).pairs := by
  intro l hl
  refine mem_pairOverlay _ m (pairwise_apart_zip h) (fun k hk => ?_) l (mem_preOrder_zip.2 hl)
  obtain ⟨hk1, hk2⟩ := linkWithin_of_mem_overlay (mem_preOrder_zip.1 hk)
  exact ⟨hs k.1 hk1, hd k.2 hk2⟩

/-! ### Rows of equal children -/

/-- The matching after a look at each of the given candidates, leaving those aside that they give rise
to. -/
def lookAt (config : AlignmentConfig) (t u : Tree) (m : Matching) (ls : List Link) : Matching :=
  ls.foldl (fun m l => (examine config t u m l).1) m

/-- Candidates that give rise to no others are done before those that wait. -/
theorem sweep_append (config : AlignmentConfig) (t u : Tree) {ls : List Link}
    (h : ∀ l ∈ ls, ∀ m, (examine config t u m l).2 = []) (bound : Nat) (m : Matching)
    (waiting : List Link) :
    sweep config t u (ls.length + bound) m (ls ++ waiting) =
      sweep config t u bound (lookAt config t u m ls) waiting := by
  induction ls generalizing m with
  | nil => rw [List.length_nil, Nat.zero_add]; rfl
  | cons l ls ih =>
    rw [List.length_cons, Nat.succ_add_eq_add_succ, Nat.add_succ, List.cons_append, sweep,
      h l List.mem_cons_self, List.nil_append]
    exact ih (fun k hk => h k (List.mem_cons_of_mem l hk)) _

theorem examine_of_digest_eq (ht : t.IsFinished) (hu : u.IsFinished) {l : Link}
    (h : t.digest l.1 = u.digest l.2) (m : Matching) :
    examine config t u m l =
      if m.hasSource l.1 || m.hasTarget l.2 then (m, [])
      else if t.height l.1 < config.minHeight then (m, []) else (pairSubtrees t u m l.1 l.2, []) := by
  have hkind := kind_eq_of_term_eq (ht.term_eq_of_digest_eq hu h)
  rw [examine, if_pos (And.intro h hkind)]

theorem lookAt_grows (ls : List Link) (ht : t.IsFinished) (hu : u.IsFinished)
    (h : ∀ l ∈ ls, t.digest l.1 = u.digest l.2) (m : Matching) :
    Grows (fun k => ∃ l ∈ ls, LinkWithin t u l k) m (lookAt config t u m ls) := by
  refine .foldl fun l hl m' _ => ?_
  rw [examine_of_digest_eq ht hu (h l hl)]
  split
  · exact .refl
  split
  · exact .refl
  · exact (pairSubtrees_grows m' l.1 l.2).mono fun k hk => ⟨l, hl, linkWithin_of_mem_overlay hk⟩

theorem lookAt_append (config : AlignmentConfig) (t u : Tree) (m : Matching) (ls ls' : List Link) :
    lookAt config t u m (ls ++ ls') = lookAt config t u (lookAt config t u m ls) ls' :=
  List.foldl_append

/-- Candidates with an end that has a partner change nothing. -/
theorem lookAt_of_taken {ls : List Link} (h : ∀ l ∈ ls, (m.hasSource l.1 || m.hasTarget l.2) = true) :
    lookAt config t u m ls = m := by
  induction ls with
  | nil => rfl
  | cons l ls ih =>
    have hl : examine config t u m l = (m, []) := by
      rw [examine, if_pos (h l List.mem_cons_self)]
    show lookAt config t u (examine config t u m l).1 ls = m
    rw [hl]
    exact ih fun k hk => h k (List.mem_cons_of_mem l hk)

/-- The couples of a child of the source with the equal children of `b`. -/
def equalRow (t u : Tree) (b c : Nat) : List Link :=
  ((u.children b).filter fun d => decide (t.digest c = u.digest d)).map fun d => (c, d)

theorem mem_equalRow {c : Nat} {l : Link} :
    l ∈ equalRow t u b c ↔ l.1 = c ∧ l.2 ∈ u.children b ∧ t.digest l.1 = u.digest l.2 := by
  simp only [equalRow, List.mem_map, List.mem_filter, decide_eq_true_eq]
  constructor
  · rintro ⟨d, hd, rfl⟩
    exact ⟨rfl, hd⟩
  · rintro ⟨rfl, hd⟩
    exact ⟨l.2, hd, rfl⟩

theorem digest_eq_of_mem_rows {cs : List Nat} {l : Link} (h : l ∈ cs.flatMap (equalRow t u b)) :
    t.digest l.1 = u.digest l.2 := by
  obtain ⟨c, -, hl⟩ := List.mem_flatMap.1 h
  exact (mem_equalRow.1 hl).2.2

/-- At the start, the couples of equal children come before all others, row by row. -/
theorem childCandidates_empty (t u : Tree) (a b : Nat) :
    ∃ alike, childCandidates t u .empty a b = (t.children a).flatMap (equalRow t u b) ++ alike := by
  have hfree : (u.children b).filter (fun d => !Matching.empty.hasTarget d) = u.children b :=
    List.filter_eq_self.2 fun d _ => by rw [Matching.hasTarget, source?_empty]; rfl
  have hequal : ((t.children a).flatMap fun c => (u.children b).map fun d => (c, d)).filter
      (fun l => decide (t.digest l.1 = u.digest l.2)) = (t.children a).flatMap (equalRow t u b) := by
    rw [List.filter_flatMap]
    refine congrArg (List.flatMap · (t.children a)) (funext fun c => ?_)
    rw [List.filter_map]
    rfl
  unfold childCandidates
  dsimp only
  rw [hfree, hequal]
  exact ⟨_, rfl⟩

/-- Two free subtrees are paired from their roots on. -/
theorem pairSubtrees_grows_roots (hs : m.hasSource a = false) (hd : m.hasTarget b = false) :
    Grows (fun _ => True) (m.pair a b) (pairSubtrees t u m a b) := by
  rw [pairSubtrees, subtree_eq, subtree_eq, Rose.zip_node, pairOverlay, hs, hd]
  exact pairOverlays_grows_freely _ _

/-- Let the children of `b` that equal `c` be some with partners and then `y` and more. In its row, `c` is
paired with `y`. -/
theorem lookAt_equalRow (ht : t.IsFinished) (hu : u.IsFinished) {c y : Nat} {used rest : List Nat}
    (hrow : (u.children b).filter (fun d => decide (t.digest c = u.digest d)) = used ++ y :: rest)
    (hused : ∀ d ∈ used, m.hasTarget d = true) (hheight : config.minHeight ≤ t.height c)
    (hc : m.hasSource c = false) (hy : m.hasTarget y = false) :
    lookAt config t u m (equalRow t u b c) = pairSubtrees t u m c y := by
  have hmem : y ∈ (u.children b).filter (fun d => decide (t.digest c = u.digest d)) := by
    rw [hrow]
    exact List.mem_append_right _ List.mem_cons_self
  have hdigest : t.digest c = u.digest y := of_decide_eq_true (List.mem_filter.1 hmem).2
  have hseen : examine config t u m (c, y) = (pairSubtrees t u m c y, []) := by
    rw [examine_of_digest_eq ht hu hdigest, hc, hy, if_neg (by decide), if_neg (Nat.not_lt.2 hheight)]
  have hself : (m.pair c y).hasSource c = true := by
    rw [Matching.hasSource, target?_pair, if_pos rfl]
    rfl
  have hsource : (pairSubtrees t u m c y).hasSource c = true :=
    (pairSubtrees_grows_roots hc hy).hasSource hself
  -- before `y` the target has a partner, and after `y` the source has one
  have hbefore : lookAt config t u m (used.map fun d => (c, d)) = m := by
    refine lookAt_of_taken fun l hl => ?_
    obtain ⟨d, hd, rfl⟩ := List.mem_map.1 hl
    rw [hused d hd, Bool.or_true]
  have hafter : lookAt config t u (pairSubtrees t u m c y) (rest.map fun d => (c, d)) =
      pairSubtrees t u m c y := by
    refine lookAt_of_taken fun l hl => ?_
    obtain ⟨d, -, rfl⟩ := List.mem_map.1 hl
    rw [hsource, Bool.true_or]
  rw [equalRow, hrow, List.map_append, List.map_cons, lookAt_append, hbefore]
  show lookAt config t u (examine config t u m (c, y)).1 _ = _
  rw [hseen]
  exact hafter

/-! ### Classes of equal children -/

/-- The children of a node with a given term, in order. -/
def ofClass (t : Tree) (n : Nat) (C : Term) : List Nat :=
  (t.children n).filter fun c => decide (t.term c = C)

theorem mem_ofClass {n c : Nat} {C : Term} : c ∈ ofClass t n C ↔ c ∈ t.children n ∧ t.term c = C := by
  rw [ofClass, List.mem_filter, decide_eq_true_eq]

/-- Finished nodes have equal digests exactly if they have equal terms, so the row of a child is its
class. -/
theorem filter_digest_eq_ofClass (ht : t.IsFinished) (hu : u.IsFinished) {c : Nat} (hc : c < t.count) :
    (u.children b).filter (fun d => decide (t.digest c = u.digest d)) = ofClass u b (t.term c) := by
  refine List.filter_congr fun d hd => ?_
  have hd' : d < u.count := lt_count_of_parent (mem_children.1 hd)
  rw [decide_eq_decide]
  exact ⟨fun h => (ht.term_eq_of_digest_eq hu h).symm, fun h => ht.digest_eq_of_term_eq hu hc hd' h.symm⟩

/-- How things stand within a class before the rows of the children `cs`: the children `used` of the target
have partners, while nothing at or below `cs` and `rest` has one. -/
structure Unspent (t u : Tree) (m : Matching) (cs used rest : List Nat) : Prop where
  taken : ∀ d ∈ used, m.hasTarget d = true
  source_free : ∀ c ∈ cs, ∀ x ∈ t.descendants c, m.hasSource x = false
  target_free : ∀ d ∈ rest, ∀ y ∈ u.descendants d, m.hasTarget y = false

variable {C : Term} {c : Nat} {cs used rest : List Nat}

/-- The row of a child pairs nothing but nodes of its own subtree with nodes of equal subtrees. -/
theorem lookAt_equalRow_grows (config : AlignmentConfig) (ht : t.IsFinished) (hu : u.IsFinished)
    (b c : Nat) (m : Matching) :
    Grows (fun k => ∃ d ∈ u.children b, t.term c = u.term d ∧ LinkWithin t u (c, d) k) m
      (lookAt config t u m (equalRow t u b c)) := by
  refine (lookAt_grows _ ht hu (fun l hl => (mem_equalRow.1 hl).2.2) m).mono ?_
  rintro k ⟨l, hl, hk⟩
  obtain ⟨rfl, hd, hdigest⟩ := mem_equalRow.1 hl
  exact ⟨l.2, hd, ht.term_eq_of_digest_eq hu hdigest, hk⟩

/-- The row of a child leaves the subtrees of later children alone. -/
theorem Unspent.source_free_lookAt (h : Unspent t u m (c :: cs) used rest)
    (config : AlignmentConfig) (b : Nat) (ht : t.IsFinished) (hu : u.IsFinished) (hnew : c ∉ cs)
    (hcs : ∀ d ∈ c :: cs, d ∈ t.children a) :
    ∀ d ∈ cs, ∀ x ∈ t.descendants d,
      (lookAt config t u m (equalRow t u b c)).hasSource x = false := by
  intro d hd x hx
  refine (lookAt_equalRow_grows config ht hu b c m).source_free
    (h.source_free d (List.mem_cons_of_mem c hd) x hx) ?_
  rintro k ⟨_, _, _, hk, _⟩ rfl
  have heq := eq_of_mem_descendants_children (mem_children.1 (hcs c List.mem_cons_self))
    (mem_children.1 (hcs d (List.mem_cons_of_mem c hd))) hk hx
  exact hnew (heq ▸ hd)

/-- The row of a child of another class takes nothing from the class. -/
theorem Unspent.lookAt_other (h : Unspent t u m (c :: cs) used rest) (ht : t.IsFinished)
    (hu : u.IsFinished) (hnew : c ∉ cs) (hcs : ∀ d ∈ c :: cs, d ∈ t.children a)
    (hclass : ofClass u b C = used ++ rest) (hC : t.term c ≠ C) :
    Unspent t u (lookAt config t u m (equalRow t u b c)) cs used rest := by
  have hrow := lookAt_equalRow_grows config ht hu b c m
  refine ⟨fun d hd => hrow.hasTarget (h.taken d hd), h.source_free_lookAt config b ht hu hnew hcs, ?_⟩
  intro d hd y hy
  refine hrow.target_free (h.target_free d hd y hy) ?_
  rintro k ⟨d', hd', hterm, -, hk⟩ rfl
  have hmem := mem_ofClass.1 (hclass ▸ List.mem_append_right used hd)
  have heq := eq_of_mem_descendants_children (mem_children.1 hmem.1) (mem_children.1 hd') hy hk
  exact hC (hterm.trans (heq ▸ hmem.2))

/-- The row of a child of the class uses up the first child of the target that is left, and pairs the two
with all that is below them. -/
theorem Unspent.lookAt_same {y : Nat} (h : Unspent t u m (c :: cs) used (y :: rest))
    (ht : t.IsFinished) (hu : u.IsFinished) (hnew : c ∉ cs) (hcs : ∀ d ∈ c :: cs, d ∈ t.children a)
    (hclass : ofClass u b C = used ++ y :: rest) (hC : t.term c = C)
    (hheight : config.minHeight ≤ C.height) :
    Unspent t u (lookAt config t u m (equalRow t u b c)) cs (used ++ [y]) rest ∧
      ∀ k ∈ t.overlay u c y, k ∈ (lookAt config t u m (equalRow t u b c)).pairs := by
  have hcount : c < t.count := lt_count_of_parent (mem_children.1 (hcs c List.mem_cons_self))
  have hc := h.source_free c List.mem_cons_self
  have hy := h.target_free y List.mem_cons_self
  have hc' := hc c (self_mem_descendants t c)
  have hy' := hy y (self_mem_descendants u y)
  have hhigh : config.minHeight ≤ t.height c := by
    rw [ht.height_eq hcount, hC]
    exact hheight
  have hseen : lookAt config t u m (equalRow t u b c) = pairSubtrees t u m c y :=
    lookAt_equalRow ht hu (by rw [filter_digest_eq_ofClass ht hu hcount, hC, hclass]) h.taken hhigh
      hc' hy'
  have hmem : ∀ d ∈ y :: rest, d ∈ u.children b ∧ u.term d = C := fun d hd =>
    mem_ofClass.1 (hclass ▸ List.mem_append_right used hd)
  have hnodup : (used ++ y :: rest).Nodup := hclass ▸ (nodup_children u b).filter _
  have hother : y ∉ rest := (List.nodup_cons.1 (List.nodup_append.1 hnodup).2.1).1
  have hself : (m.pair c y).hasTarget y = true := by
    rw [Matching.hasTarget, source?_pair, if_pos rfl]
    rfl
  have hlater := h.source_free_lookAt config b ht hu hnew hcs
  rw [hseen] at hlater ⊢
  refine ⟨⟨?_, hlater, ?_⟩, ?_⟩
  · intro d hd
    rcases List.mem_append.1 hd with hd | hd
    · exact (pairSubtrees_grows m c y).hasTarget (h.taken d hd)
    · obtain rfl := List.mem_singleton.1 hd
      exact (pairSubtrees_grows_roots hc' hy').hasTarget hself
  · intro d hd z hz
    refine (pairSubtrees_grows m c y).target_free (h.target_free d (List.mem_cons_of_mem y hd) z hz) ?_
    rintro k hk rfl
    have heq := eq_of_mem_descendants_children (mem_children.1 (hmem y List.mem_cons_self).1)
      (mem_children.1 (hmem d (List.mem_cons_of_mem y hd)).1) (linkWithin_of_mem_overlay hk).2 hz
    exact hother (heq ▸ hd)
  · exact mem_pairSubtrees_of_free (hC.trans (hmem y List.mem_cons_self).2.symm) hc hy

/-- The rows of the children `cs` pair those of class `C` with what is left of the class in the target, one
for one and with all that is below. The induction is on the children whose rows are to come. -/
theorem mem_lookAt_rows (h : Unspent t u m cs used rest) (ht : t.IsFinished) (hu : u.IsFinished)
    (hnodup : cs.Nodup) (hcs : ∀ c ∈ cs, c ∈ t.children a) (hclass : ofClass u b C = used ++ rest)
    (hheight : config.minHeight ≤ C.height) :
    ∀ l ∈ (cs.filter fun c => decide (t.term c = C)).zip rest, ∀ k ∈ t.overlay u l.1 l.2,
      k ∈ (lookAt config t u m (cs.flatMap (equalRow t u b))).pairs := by
  induction cs generalizing m used rest with
  | nil => exact fun l hl => absurd hl List.not_mem_nil
  | cons c cs ih =>
    obtain ⟨hnew, hnodup⟩ := List.nodup_cons.1 hnodup
    have hcs' : ∀ d ∈ cs, d ∈ t.children a := fun d hd => hcs d (List.mem_cons_of_mem c hd)
    rw [List.flatMap_cons, lookAt_append, List.filter_cons]
    by_cases hC : t.term c = C
    · rw [if_pos (decide_eq_true hC)]
      cases rest with
      | nil => exact fun l hl => absurd hl List.not_mem_nil
      | cons y rest =>
        obtain ⟨hnext, hwhole⟩ := h.lookAt_same ht hu hnew hcs hclass hC hheight
        have hlater := ih hnext hnodup hcs' (by rw [hclass, List.append_assoc]; rfl)
        rw [List.zip_cons_cons]
        refine List.forall_mem_cons.2 ⟨fun k hk => ?_, hlater⟩
        exact (lookAt_grows _ ht hu (fun _ => digest_eq_of_mem_rows) _).mem_of_mem (hwhole k hk)
    · rw [if_neg (by simpa using hC)]
      exact ih (h.lookAt_other ht hu hnew hcs hclass hC) hnodup hcs' hclass

/-! ### The whole alignment -/

theorem length_rows_le (t u : Tree) (b : Nat) (cs : List Nat) :
    (cs.flatMap (equalRow t u b)).length ≤ cs.length * (u.children b).length := by
  induction cs with
  | nil => exact Nat.zero_le _
  | cons c cs ih =>
    have hrow : (equalRow t u b c).length ≤ (u.children b).length := by
      rw [equalRow, List.length_map]
      exact List.length_filter_le _ _
    rw [List.flatMap_cons, List.length_append, List.length_cons, Nat.succ_mul]
    omega

/-- The bound on the number of candidates leaves room for the two roots and all couples of their
children. -/
theorem exists_bound (t u : Tree) (a b : Nat) :
    ∃ n, (t.descendants a).length * (u.descendants b).length =
      ((t.children a).flatMap (equalRow t u b)).length + n + 1 := by
  have hrows := length_rows_le t u b (t.children a)
  have hlt : (t.children a).length * (u.children b).length <
      (t.descendants a).length * (u.descendants b).length :=
    Nat.mul_lt_mul'' (length_children_lt t a) (length_children_lt u b)
  obtain ⟨n, hn⟩ := Nat.exists_eq_add_of_le (Nat.succ_le_of_lt (Nat.lt_of_le_of_lt hrows hlt))
  exact ⟨n, by omega⟩

/-- A sweep from two different roots goes through the rows of their children first. -/
theorem topDown_eq_sweep_rows (ht : t.IsFinished) (hu : u.IsFinished) (hne : t.term a ≠ u.term b)
    (hheight : config.minHeight ≤ t.height a) :
    ∃ bound alike, topDown config t u a b = sweep config t u bound
      (lookAt config t u .empty ((t.children a).flatMap (equalRow t u b))) alike := by
  obtain ⟨alike, hcandidates⟩ := childCandidates_empty t u a b
  obtain ⟨n, hn⟩ := exists_bound t u a b
  have hseen : examine config t u .empty (a, b) = (.empty, childCandidates t u .empty a b) := by
    rw [examine, if_neg (by simp [Matching.hasSource, Matching.hasTarget]),
      if_neg (Nat.not_lt.2 hheight), if_neg fun h => hne (ht.term_eq_of_digest_eq hu h.1)]
  have hquiet : ∀ l ∈ (t.children a).flatMap (equalRow t u b), ∀ m,
      (examine config t u m l).2 = [] := by
    intro l hl m
    rw [examine_of_digest_eq ht hu (digest_eq_of_mem_rows hl)]
    split
    · rfl
    split <;> rfl
  refine ⟨n, alike, ?_⟩
  rw [topDown, hn, sweep, hseen, List.append_nil, hcandidates]
  exact sweep_append config t u hquiet n .empty alike

/-- What the rows of equal children pair stays paired. -/
theorem mem_align_of_mem_rows (ht : t.IsFinished) (hu : u.IsFinished) (hne : t.term a ≠ u.term b)
    (hheight : config.minHeight ≤ t.height a) {k : Link}
    (h : k ∈ (lookAt config t u .empty ((t.children a).flatMap (equalRow t u b))).pairs) :
    k ∈ (align config t u a b).pairs := by
  obtain ⟨bound, alike, htop⟩ := topDown_eq_sweep_rows ht hu hne hheight
  have hanywhere : PassesDown t u fun _ => True := fun _ _ _ _ _ _ => trivial
  have hk : k ∈ (topDown config t u a b).pairs := by
    rw [htop]
    exact (sweep_grows config hanywhere bound _ alike fun _ _ => trivial).mem_of_mem h
  have hroots : k ∈ (pairRoots config t u a b).pairs := by
    unfold pairRoots
    dsimp only
    split
    · exact hk
    · rw [pairs_pair]
      exact List.mem_append_left _ hk
  exact (bottomUp_grows (pairRoots_grows config t u a b)).mem_of_mem hroots

/-- Among the children of two different nodes, those of one class of equal subtrees are paired in their
order, the first with the first and the second with the second, each place below them with the same
place, whatever the other children are. -/
theorem align_moved_children (config : AlignmentConfig) (ht : t.IsFinished) (hu : u.IsFinished)
    (hne : t.term a ≠ u.term b) (hheight : config.minHeight ≤ C.height) {k x y : Nat}
    (hx : ((t.children a).filter fun c => decide (t.term c = C))[k]? = some x)
    (hy : ((u.children b).filter fun d => decide (u.term d = C))[k]? = some y) :
    (x, y) ∈ (align config t u a b).pairs ∧
    (t.descendants x).length = (u.descendants y).length ∧
    ∀ l ∈ (t.descendants x).zip (u.descendants y), l ∈ (align config t u a b).pairs := by
  have hxC : x ∈ ofClass t a C := List.mem_of_getElem? hx
  have hyC : y ∈ ofClass u b C := List.mem_of_getElem? hy
  have hterm : t.term x = u.term y := (mem_ofClass.1 hxC).2.trans (mem_ofClass.1 hyC).2.symm
  -- the parent of a child that is high enough is high enough
  have hhigh : config.minHeight ≤ t.height a := by
    have hparent := mem_children.1 (mem_ofClass.1 hxC).1
    have hlt : (t.term x).height < (t.term a).height := by
      rw [term_eq t a]
      exact Rose.height_lt_of_mem (List.mem_map_of_mem (mem_ofClass.1 hxC).1)
    rw [ht.height_eq (Nat.lt_trans (lt_of_parent hparent) (lt_count_of_parent hparent))]
    rw [(mem_ofClass.1 hxC).2] at hlt
    omega
  have hstart : Unspent t u .empty (t.children a) [] (ofClass u b C) :=
    ⟨fun _ hd => absurd hd List.not_mem_nil, fun _ _ _ _ => by simp [Matching.hasSource],
      fun _ _ _ _ => by simp [Matching.hasTarget]⟩
  have hzip : (x, y) ∈ (ofClass t a C).zip (ofClass u b C) :=
    List.mem_of_getElem? (List.getElem?_zip_eq_some.2 ⟨hx, hy⟩)
  have hall : ∀ l ∈ t.overlay u x y, l ∈ (align config t u a b).pairs := fun l hl =>
    mem_align_of_mem_rows ht hu hne hhigh (mem_lookAt_rows hstart ht hu (nodup_children t a)
      (fun _ hc => hc) rfl hheight (x, y) hzip l hl)
  exact ⟨hall _ (self_mem_overlay t u x y), length_descendants_eq hterm, fun l hl =>
    hall l ((mem_overlay_iff_mem_zip hterm).2 hl)⟩

/-- A block that calls something, returns, and makes the same call again. -/
def callTwice : Tree :=
  (((((single ⟨Kind.block, none⟩ ⟨0, 20⟩).addChild 0 ⟨Kind.expressionStatement, none⟩ ⟨1, 5⟩).addChild 1
    ⟨Kind.simpleName, some "x"⟩ ⟨2, 3⟩).addChild 0 ⟨Kind.returnStatement, none⟩ ⟨6, 9⟩).addChild 0
    ⟨Kind.expressionStatement, none⟩ ⟨10, 14⟩).addChild 4 ⟨Kind.simpleName, some "x"⟩ ⟨11, 12⟩ |>.finish

/-- The block with the return in front and another call between the two. -/
def callTwiceReordered : Tree :=
  (((((((single ⟨Kind.block, none⟩ ⟨0, 20⟩).addChild 0 ⟨Kind.returnStatement, none⟩ ⟨1, 4⟩).addChild 0
    ⟨Kind.expressionStatement, none⟩ ⟨5, 9⟩).addChild 2 ⟨Kind.simpleName, some "x"⟩ ⟨6, 7⟩).addChild 0
    ⟨Kind.expressionStatement, none⟩ ⟨10, 14⟩).addChild 4 ⟨Kind.simpleName, some "y"⟩ ⟨11, 12⟩).addChild 0
    ⟨Kind.expressionStatement, none⟩ ⟨15, 19⟩).addChild 6 ⟨Kind.simpleName, some "x"⟩ ⟨16, 17⟩ |>.finish

/-- The second of two equal calls goes with the second one, though a call of the same kind stands nearer. -/
theorem second_call_follows_second_call :
    callTwice.term root ≠ callTwiceReordered.term root ∧
    (4, 6) ∈ (align {} callTwice callTwiceReordered root root).pairs ∧
    (5, 7) ∈ (align {} callTwice callTwiceReordered root root).pairs := by
  have hne : callTwice.term root ≠ callTwiceReordered.term root := by decide +kernel
  obtain ⟨hroots, -, hbelow⟩ := align_moved_children {} (C := callTwice.term 4) (k := 1) (x := 4) (y := 6)
    ⟨_, rfl⟩ ⟨_, rfl⟩ hne (by decide +kernel) (by decide +kernel) (by decide +kernel)
  exact ⟨hne, hroots, hbelow (5, 7) (by decide +kernel)⟩

end Alignment

end Counterpart
