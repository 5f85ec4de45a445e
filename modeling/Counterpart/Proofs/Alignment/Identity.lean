import Counterpart.Alignment.Links
import Counterpart.Proofs.Alignment.Growth
import Counterpart.Proofs.LinkSet
import Counterpart.Proofs.Tree.Positions

/-!
# Alignment of identical subtrees

Subtrees with the same term are aligned place by place, whatever the configuration says
(`align_pairs_perm`). If the digests are compared at all they decide at once; otherwise only the roots
are paired to begin with, and the rules for what is left find the counterpart of every node at the same
place under the partner of its parent. The proof treats both alike: all pairs so far are places of the
overlay, and visiting a node whose parent has a partner adds its place (`pairInner_places`,
`pairLeaf_places`).
-/

namespace Counterpart

namespace Alignment

open Matching Counterpart.Tree

variable {t u : Tree} {a b : Nat} {m : Matching}

/-- All pairs so far are places of the overlay, and were free when they were paired. -/
abbrev Places (t u : Tree) (a b : Nat) : Matching → Matching → Prop :=
  Grows (· ∈ t.overlay u a b)

/-- A node that can be visited: it has a partner, or its parent has one. -/
def Reached (t : Tree) (m : Matching) (x : Nat) : Prop :=
  m.hasSource x = true ∨ ∃ p, t.parent x = some p ∧ m.hasSource p = true

/-! ### One visit -/

/-- The counterpart of a free node under a parent with a partner is free too, and stands at the same
place under that partner. -/
theorem counterpart_free (h : t.term a = u.term b) (hm : Places t u a b .empty m) {x y p : Nat}
    (hxy : (x, y) ∈ t.overlay u a b) (hfree : m.hasSource x = false) (hp : t.parent x = some p)
    (hpm : m.hasSource p = true) :
    ∃ q, parentPartner? t m x = some q ∧ y ∈ u.children q ∧ m.hasTarget y = false ∧
      u.kind y = t.kind x ∧ u.position y = t.position x := by
  have hone := hm.oneToOne oneToOne_empty
  obtain ⟨q, hq⟩ := hone.hasSource_iff.1 hpm
  have hpq : (p, q) ∈ t.overlay u a b := hm.forall_mem _ hq
  have hplace := mem_zip_children_of_mem_overlay h hxy hpq hp
  refine ⟨q, ?_, (List.of_mem_zip hplace).2, ?_, ?_, (position_eq_of_mem_zip hplace).symm⟩
  · exact Option.bind_eq_some_iff.2 ⟨p, hp, (hone.target?_eq_some_iff p q).2 hq⟩
  · -- a partner of `y` would be `x`, which has none
    rw [← Bool.not_eq_true, hone.hasTarget_iff]
    rintro ⟨z, hz⟩
    obtain rfl : z = x := (fst_eq_iff_snd_eq h (hm.forall_mem _ hz) hxy).2 rfl
    rw [hone.hasSource_iff.2 ⟨y, hz⟩] at hfree
    cases hfree
  · exact (kind_eq_of_term_eq (term_eq_of_mem_overlay h hxy)).symm

theorem sameSpot?_eq_counterpart (h : t.term a = u.term b) (hm : Places t u a b .empty m)
    {x y p : Nat} (hxy : (x, y) ∈ t.overlay u a b) (hfree : m.hasSource x = false)
    (hp : t.parent x = some p) (hpm : m.hasSource p = true) : sameSpot? t u m x = some y := by
  obtain ⟨q, hq, hy, hfreey, hkind, hpos⟩ := counterpart_free h hm hxy hfree hp hpm
  refine Option.bind_eq_some_iff.2 ⟨q, hq, find?_eq_some_of_unique hy ?_ ?_⟩
  · simp [hfreey, hkind, hpos]
  · intro z hz hcond
    simp only [Bool.and_eq_true, beq_iff_eq] at hcond
    exact position_injOn_children hz hy (hcond.2.trans hpos.symm)

theorem leafPartner?_eq_counterpart (h : t.term a = u.term b) (hm : Places t u a b .empty m)
    {x y p : Nat} (hxy : (x, y) ∈ t.overlay u a b) (hfree : m.hasSource x = false)
    (hp : t.parent x = some p) (hpm : m.hasSource p = true) (hleaf : t.isLeaf x = true) :
    leafPartner? t u m x = some y := by
  obtain ⟨q, hq, hy, hfreey, hkind, hpos⟩ := counterpart_free h hm hxy hfree hp hpm
  have hterm := term_eq_of_mem_overlay h hxy
  have hleafy : u.isLeaf y = true := isLeaf_eq_of_term_eq hterm ▸ hleaf
  have hlabel : u.label y = t.label x := (label_eq_of_term_eq hterm).symm
  refine Option.bind_eq_some_iff.2 ⟨q, hq, Option.or_eq_some_iff.2 (.inl ?_)⟩
  apply find?_eq_some_of_unique
  · simp [hy, hfreey, hleafy, hkind]
  · simp [hpos, hlabel]
  · intro z hz hcond
    simp only [Bool.and_eq_true, beq_iff_eq] at hcond
    exact position_injOn_children (List.mem_filter.1 hz).1 hy (hcond.1.trans hpos.symm)

/-- Visiting an inner node adds its place, unless it has a partner. -/
theorem pairInner_places (config : AlignmentConfig) (h : t.term a = u.term b)
    (hm : Places t u a b .empty m) {x : Nat} (hx : x ∈ t.descendants a) (hreached : Reached t m x) :
    Places t u a b m (pairInner config t u b m x) ∧
      (t.isLeaf x = false → (pairInner config t u b m x).hasSource x = true) := by
  unfold pairInner
  cases hfree : m.hasSource x with
  | true => exact ⟨.refl, fun _ => hfree⟩
  | false =>
    cases hleaf : t.isLeaf x with
    | true => exact ⟨.refl, fun hinner => nomatch hinner⟩
    | false =>
      obtain ⟨p, hp, hpm⟩ := hreached.resolve_left (by simp [hfree])
      obtain ⟨y, hxy⟩ := exists_mem_overlay h hx
      obtain ⟨-, -, -, hfreey, -⟩ := counterpart_free h hm hxy hfree hp hpm
      rw [sameSpot?_eq_counterpart h hm hxy hfree hp hpm]
      exact ⟨.pair .refl hfree hfreey hxy, fun _ => hasSource_pair_self m x y⟩

/-- Visiting a leaf adds its place, unless it has a partner. -/
theorem pairLeaf_places (h : t.term a = u.term b) (hm : Places t u a b .empty m) {x : Nat}
    (hx : x ∈ t.descendants a) (hreached : Reached t m x) :
    Places t u a b m (pairLeaf t u m x) ∧
      (t.isLeaf x = true → (pairLeaf t u m x).hasSource x = true) := by
  unfold pairLeaf
  cases hfree : m.hasSource x with
  | true => exact ⟨.refl, fun _ => hfree⟩
  | false =>
    cases hleaf : t.isLeaf x with
    | false => exact ⟨.refl, fun hinner => nomatch hinner⟩
    | true =>
      obtain ⟨p, hp, hpm⟩ := hreached.resolve_left (by simp [hfree])
      obtain ⟨y, hxy⟩ := exists_mem_overlay h hx
      obtain ⟨-, -, -, hfreey, -⟩ := counterpart_free h hm hxy hfree hp hpm
      rw [leafPartner?_eq_counterpart h hm hxy hfree hp hpm hleaf]
      exact ⟨.pair .refl hfree hfreey hxy, fun _ => hasSource_pair_self m x y⟩

/-! ### Both passes -/

/-- Going over a subtree whose root is reached pairs all its inner nodes: parents come first, so every
node is reached by the time it is visited. -/
theorem foldl_pairInner_places (config : AlignmentConfig) (h : t.term a = u.term b)
    (hm : Places t u a b .empty m) {n : Nat} (hn : n ∈ t.descendants a) (hreached : Reached t m n) :
    Places t u a b m ((t.descendants n).foldl (pairInner config t u b) m) ∧
      ∀ x ∈ t.descendants n, t.isLeaf x = false →
        ((t.descendants n).foldl (pairInner config t u b) m).hasSource x = true := by
  induction n using children_induction (t := t) generalizing m with
  | step n ih =>
    -- the subtrees of some of the children, one after the other, once their parent has a partner
    have hrest : ∀ cs : List Nat, (∀ c ∈ cs, c ∈ t.children n) → ∀ m', Places t u a b .empty m' →
        (cs ≠ [] → m'.hasSource n = true) →
        Places t u a b m' ((cs.flatMap t.descendants).foldl (pairInner config t u b) m') ∧
          ∀ x ∈ cs.flatMap t.descendants, t.isLeaf x = false →
            ((cs.flatMap t.descendants).foldl (pairInner config t u b) m').hasSource x = true := by
      intro cs
      induction cs with
      | nil => exact fun _ m' _ _ => ⟨.refl, fun x hx => absurd hx List.not_mem_nil⟩
      | cons c cs ihcs =>
        intro hcs m' hm' hparent
        have hc := hcs c List.mem_cons_self
        have hnm' := hparent (List.cons_ne_nil c cs)
        obtain ⟨hgrow, hfirst⟩ := ih c hc hm'
          (mem_descendants_trans hn (mem_descendants_of_child hc)) (.inr ⟨n, mem_children.1 hc, hnm'⟩)
        obtain ⟨hgrows, hlater⟩ := ihcs (fun d hd => hcs d (List.mem_cons_of_mem c hd)) _
          (hm'.trans hgrow) (fun _ => hgrow.hasSource hnm')
        rw [List.flatMap_cons, List.foldl_append]
        refine ⟨hgrow.trans hgrows, fun x hx hinner => ?_⟩
        rcases List.mem_append.1 hx with hx | hx
        · exact hgrows.hasSource (hfirst x hx hinner)
        · exact hlater x hx hinner
    obtain ⟨hgrow, hself⟩ := pairInner_places config h hm hn hreached
    have hinner : t.children n ≠ [] → t.isLeaf n = false := fun hne => by simpa [isLeaf] using hne
    obtain ⟨hgrows, hbelow⟩ := hrest (t.children n) (fun _ hc => hc) _ (hm.trans hgrow)
      fun hne => hself (hinner hne)
    rw [descendants_eq, List.foldl_cons]
    refine ⟨hgrow.trans hgrows, fun x hx hx' => ?_⟩
    rcases List.mem_cons.1 hx with rfl | hx
    · exact hgrows.hasSource (hself hx')
    · exact hbelow x hx hx'

/-- Once all nodes are reached, going over leaves pairs them all. -/
theorem foldl_pairLeaf_places (h : t.term a = u.term b) {xs : List Nat}
    (hxs : ∀ x ∈ xs, x ∈ t.descendants a) (hm : Places t u a b .empty m)
    (hreached : ∀ x ∈ xs, Reached t m x) :
    Places t u a b m (xs.foldl (pairLeaf t u) m) ∧
      ∀ x ∈ xs, t.isLeaf x = true → (xs.foldl (pairLeaf t u) m).hasSource x = true := by
  induction xs generalizing m with
  | nil => exact ⟨.refl, fun x hx => absurd hx List.not_mem_nil⟩
  | cons x xs ih =>
    obtain ⟨hgrow, hself⟩ :=
      pairLeaf_places h hm (hxs x List.mem_cons_self) (hreached x List.mem_cons_self)
    have hstill : ∀ y ∈ xs, Reached t (pairLeaf t u m x) y := by
      intro y hy
      rcases hreached y (List.mem_cons_of_mem x hy) with hym | ⟨p, hp, hpm⟩
      · exact .inl (hgrow.hasSource hym)
      · exact .inr ⟨p, hp, hgrow.hasSource hpm⟩
    obtain ⟨hgrows, hlater⟩ :=
      ih (fun y hy => hxs y (List.mem_cons_of_mem x hy)) (hm.trans hgrow) hstill
    refine ⟨hgrow.trans hgrows, fun y hy hleaf => ?_⟩
    rcases List.mem_cons.1 hy with rfl | hy
    · exact hgrows.hasSource (hself hleaf)
    · exact hlater y hy hleaf

/-- What is left below two partners is paired to the last node. -/
theorem bottomUp_places (config : AlignmentConfig) (h : t.term a = u.term b)
    (hm : Places t u a b .empty m) (hroot : m.hasSource a = true) :
    Places t u a b m (bottomUp config t u m a b) ∧
      ∀ x ∈ t.descendants a, (bottomUp config t u m a b).hasSource x = true := by
  obtain ⟨hgrow, hinner⟩ := foldl_pairInner_places config h hm (self_mem_descendants t a)
    (.inl hroot)
  -- every parent is an inner node, so all nodes are reached by now
  have hreached : ∀ x ∈ t.descendants a,
      Reached t ((t.descendants a).foldl (pairInner config t u b) m) x := by
    intro x hx
    rcases mem_descendants_iff_parent.1 hx with rfl | ⟨p, hp, hpa⟩
    · exact .inl (hgrow.hasSource hroot)
    · refine .inr ⟨p, hp, hinner p hpa ?_⟩
      have hne : t.children p ≠ [] := List.ne_nil_of_mem (mem_children.2 hp)
      simpa [isLeaf] using hne
  obtain ⟨hgrows, hleaf⟩ := foldl_pairLeaf_places h (fun _ hx => hx) (hm.trans hgrow) hreached
  refine ⟨hgrow.trans hgrows, fun x hx => ?_⟩
  cases hx' : t.isLeaf x with
  | true => exact hleaf x hx hx'
  | false => exact hgrows.hasSource (hinner x hx hx')

/-! ### Whole alignments -/

/-- The first part pairs all places at once, or none. -/
theorem topDown_places (config : AlignmentConfig) (h : t.term a = u.term b)
    (hdigest : t.digest a = u.digest b) : Places t u a b .empty (topDown config t u a b) := by
  have hseen : examine config t u .empty (a, b) = (.empty, []) ∨
      examine config t u .empty (a, b) = (pairSubtrees t u .empty a b, []) := by
    unfold examine
    rw [if_neg (by simp [Matching.hasSource, Matching.hasTarget])]
    split
    · exact .inl rfl
    · exact .inr (if_pos ⟨hdigest, kind_eq_of_term_eq h⟩)
  unfold topDown
  cases (t.descendants a).length * (u.descendants b).length with
  | zero => exact .refl
  | succ bound =>
    rw [sweep]
    rcases hseen with hseen | hseen
    · rw [hseen, List.append_nil, sweep_nil]
      exact .refl
    · rw [hseen, List.append_nil, sweep_nil]
      exact pairSubtrees_grows .empty a b

theorem pairRoots_places (config : AlignmentConfig) (h : t.term a = u.term b)
    (hdigest : t.digest a = u.digest b) : Places t u a b .empty (pairRoots config t u a b) := by
  have htop := topDown_places config h hdigest
  unfold pairRoots
  dsimp only
  split
  · exact htop
  · next hfree =>
    obtain ⟨hs, hd⟩ := or_eq_false_of_not hfree
    exact htop.pair hs hd (self_mem_overlay t u a b)

theorem mem_align_iff_mem_overlay (config : AlignmentConfig) (h : t.term a = u.term b)
    (hdigest : t.digest a = u.digest b) {l : Link} :
    l ∈ (align config t u a b).pairs ↔ l ∈ t.overlay u a b := by
  have hroots := pairRoots_places config h hdigest
  have hroot : (pairRoots config t u a b).hasSource a = true :=
    (hroots.oneToOne oneToOne_empty).hasSource_iff.2 ⟨b, mem_pairRoots config t u a b⟩
  obtain ⟨hgrow, hall⟩ := bottomUp_places config h hroots hroot
  have hplaces : Places t u a b .empty (align config t u a b) := hroots.trans hgrow
  refine ⟨hplaces.forall_mem l, fun hl => ?_⟩
  -- the source of a place has a partner, which is at the same place
  have hsource := hall l.1 (linkWithin_of_mem_overlay hl).1
  obtain ⟨y, hy⟩ := (hplaces.oneToOne oneToOne_empty).hasSource_iff.1 hsource
  obtain rfl : y = l.2 := (fst_eq_iff_snd_eq h (hplaces.forall_mem _ hy) hl).1 rfl
  exact hy

/-- Subtrees with the same term and digest are aligned place by place, for every configuration. -/
theorem align_pairs_perm (config : AlignmentConfig) (h : t.term a = u.term b)
    (hdigest : t.digest a = u.digest b) :
    (align config t u a b).pairs.Perm ((t.descendants a).zip (u.descendants b)) := by
  have hnodup : (align config t u a b).pairs.Nodup :=
    .of_map Prod.fst ((align_grows config t u a b).oneToOne oneToOne_empty).nodup_sources
  rw [List.perm_ext_iff_of_nodup hnodup (nodup_zip_descendants h)]
  intro l
  rw [mem_align_iff_mem_overlay config h hdigest, mem_overlay_iff_mem_zip h]

theorem mem_simpleLinks_iff_mem_overlay (config : AlignmentConfig) (h : t.term a = u.term b)
    (hdigest : t.digest a = u.digest b) (wholesale : Bool) {l : Link} :
    l ∈ simpleLinks config t u wholesale a b ↔ l ∈ t.overlay u a b := by
  unfold simpleLinks
  split
  · exact Iff.rfl
  · rw [List.mem_cons, mem_align_iff_mem_overlay config h hdigest]
    refine ⟨?_, .inr⟩
    rintro (rfl | hl)
    · exact self_mem_overlay t u a b
    · exact hl

/-- Isomorphic subtrees of finished trees are aligned place by place, each place once, for every
configuration. So aligning them as wholes, aligning them otherwise and laying one over the other all add
the same links to a link set. -/
theorem align_isomorphic (config : AlignmentConfig) (ht : t.IsFinished) (hu : u.IsFinished)
    (ha : a < t.count) (hb : b < u.count) (h : t.term a = u.term b) :
    (t.descendants a).length = (u.descendants b).length ∧
    (align config t u a b).pairs.Perm ((t.descendants a).zip (u.descendants b)) ∧
    (align config t u a b).pairs.Nodup ∧
    ∀ x : LinkSet, x.WellFormed →
      (∀ l, l ∈ (x.insertMany (t.overlay u a b)).pairs ↔
        l ∈ x.pairs ∨ l ∈ (t.descendants a).zip (u.descendants b)) ∧
      ∀ wholesale, (x.insertMany (simpleLinks config t u wholesale a b)).sameRelation
        (x.insertMany (t.overlay u a b)) = true := by
  have hdigest := ht.digest_eq_of_term_eq hu ha hb h
  have hperm := align_pairs_perm config h hdigest
  refine ⟨length_descendants_eq h, hperm, hperm.nodup_iff.2 (nodup_zip_descendants h), ?_⟩
  intro x hx
  refine ⟨fun l => ?_, fun wholesale => ?_⟩
  · rw [hx.mem_insertMany, mem_overlay_iff_mem_zip h]
  · rw [(hx.insertMany _).sameRelation_iff (hx.insertMany _)]
    intro l
    rw [hx.mem_insertMany, hx.mem_insertMany, mem_simpleLinks_iff_mem_overlay config h hdigest]

/-- A block of two equal statements, numbered level by level. -/
def twins : Tree :=
  ((((single ⟨Kind.block, none⟩ ⟨0, 9⟩).addChild 0 ⟨Kind.expressionStatement, none⟩ ⟨1, 4⟩).addChild 0
    ⟨Kind.expressionStatement, none⟩ ⟨5, 8⟩).addChild 1 ⟨Kind.simpleName, some "x"⟩ ⟨2, 3⟩).addChild 2
    ⟨Kind.simpleName, some "x"⟩ ⟨6, 7⟩ |>.finish

/-- The same block in a file, numbered in pre-order. -/
def twinsInFile : Tree :=
  (((((single ⟨Kind.compilationUnit, none⟩ ⟨0, 9⟩).addChild 0 ⟨Kind.block, none⟩ ⟨0, 9⟩).addChild 1
    ⟨Kind.expressionStatement, none⟩ ⟨1, 4⟩).addChild 2 ⟨Kind.simpleName, some "x"⟩ ⟨2, 3⟩).addChild 1
    ⟨Kind.expressionStatement, none⟩ ⟨5, 8⟩).addChild 4 ⟨Kind.simpleName, some "x"⟩ ⟨6, 7⟩ |>.finish

/-- No node is high enough for its digest to be compared, and yet none of the equal statements and names
is mistaken for another. -/
theorem twins_aligned_in_place :
    twins.term root = twinsInFile.term 1 ∧
    (align { minHeight := 9 } twins twinsInFile root 1).pairs.Perm
      [(0, 1), (1, 2), (3, 3), (2, 4), (4, 5)] ∧
    (LinkSet.empty.insertMany (simpleLinks { minHeight := 9 } twins twinsInFile false root 1)).sameRelation
      (LinkSet.empty.insertMany (twins.overlay twinsInFile root 1)) = true := by
  have hterm : twins.term root = twinsInFile.term 1 := by decide +kernel
  obtain ⟨-, hperm, -, hlinks⟩ := align_isomorphic { minHeight := 9 } ⟨_, rfl⟩ ⟨_, rfl⟩
    (by decide +kernel) (by decide +kernel) hterm
  have hzip : (twins.descendants root).zip (twinsInFile.descendants 1) =
      [(0, 1), (1, 2), (3, 3), (2, 4), (4, 5)] := by decide +kernel
  exact ⟨hterm, hzip ▸ hperm, (hlinks .empty LinkSet.wellFormed_empty).2 false⟩

end Alignment

end Counterpart
