import Counterpart.Proofs.Alignment.Frame

/-!
# What the links of composite statements leave over

The parts of two composite statements are used up greedily, first by their kinds and then by copies of one
part inside another. A part that stays without links was free at every turn, so no other free part would
have done: the leftovers of the first pass have no kind in common (`kind_ne_of_unpaired`), and those of the
second no copies of each other (`copyLinks?_eq_none_or_linked`). In finished trees the test for copies misses
none (`IsFinished.isIsomorphic_iff`). A part that has links belongs to one group of them, so it shares them
with one part of the other statement (`compositeLinks_exhaust_parts`).
-/

namespace Counterpart

namespace Alignment

open Counterpart.Tree

variable {config : AlignmentConfig} {t u : Tree} {a b s d : Nat}

/-! ### Parts that have links -/

/-- Some node of the source subtree of `s` is an end of a link. -/
def SourceTouched (t : Tree) (links : LinkSet) (s : Nat) : Prop :=
  ∃ l ∈ links.pairs, l.1 ∈ t.descendants s

/-- Some node of the target subtree of `d` is an end of a link. -/
def TargetTouched (u : Tree) (links : LinkSet) (d : Nat) : Prop :=
  ∃ l ∈ links.pairs, l.2 ∈ u.descendants d

/-- Some link leads from the subtree of `s` to that of `d`. -/
def SharesLinks (t u : Tree) (links : LinkSet) (s d : Nat) : Prop :=
  ∃ l ∈ links.pairs, l.1 ∈ t.descendants s ∧ l.2 ∈ u.descendants d

/-- Two parts could be linked: they are of the same kind, or below one of them there is a copy of the
other. -/
def Alignable (t u : Tree) (s d : Nat) : Prop :=
  t.kind s = u.kind d ∨ (∃ x ∈ t.strictDescendants s, t.term x = u.term d) ∨
    ∃ y ∈ u.strictDescendants d, u.term y = t.term s

instance (t : Tree) (links : LinkSet) (s : Nat) : Decidable (SourceTouched t links s) :=
  inferInstanceAs (Decidable (∃ l ∈ links.pairs, _))

instance (u : Tree) (links : LinkSet) (d : Nat) : Decidable (TargetTouched u links d) :=
  inferInstanceAs (Decidable (∃ l ∈ links.pairs, _))

instance (t u : Tree) (links : LinkSet) (s d : Nat) : Decidable (SharesLinks t u links s d) :=
  inferInstanceAs (Decidable (∃ l ∈ links.pairs, _))

/-! ### Parts of equal kind -/

/-- What is left on both sides has no kind in common: the target parts that are free in the end were free
at every turn. -/
theorem kind_ne_of_unpaired {ss free : List Nat} (hs : s ∈ (pairParts t u ss free).unpaired)
    (hd : d ∈ (pairParts t u ss free).free) : t.kind s ≠ u.kind d := by
  induction ss generalizing free with
  | nil => cases hs
  | cons s' ss ih =>
    rw [pairParts] at hs hd
    split at hs
    · next d' hfind =>
      rw [hfind] at hd
      exact ih hs hd
    · next hfind =>
      rw [hfind] at hd
      rcases List.mem_cons.1 hs with rfl | hs
      · have hfree := (pairParts_subset ss free).2.2 d hd
        intro hkind
        exact List.find?_eq_none.1 hfind d hfree (beq_iff_eq.2 hkind.symm)
      · exact ih hs hd

/-- Two parts of equal kind are linked themselves. -/
theorem self_mem_partLinks (config : AlignmentConfig) (t u : Tree) (l : Link) :
    l ∈ partLinks config t u l := by
  unfold partLinks
  split
  · exact self_mem_overlay t u l.1 l.2
  · exact mem_align config t u l.1 l.2

/-! ### Copies -/

theorem exists_mem_of_copyLinks? {links : List Link} (h : copyLinks? t u s d = some links) :
    ∃ l ∈ links, LinkWithin t u (s, d) l := by
  have hne : ∃ l, l ∈ links := by
    unfold copyLinks? at h
    split at h
    · next x _ => exact ⟨(x, d), Option.some.inj h ▸ self_mem_overlay t u x d⟩
    · obtain ⟨y, -, rfl⟩ := Option.map_eq_some_iff.1 h
      exact ⟨(s, y), self_mem_overlay t u s y⟩
  obtain ⟨l, hl⟩ := hne
  exact ⟨l, hl, copyLinks?_within h hl⟩

/-- Two parts have no copy of each other, or one of them got links. -/
theorem copyLinks?_eq_none_or_linked {ss free : List Nat} (hs : s ∈ ss) (hd : d ∈ free) :
    copyLinks? t u s d = none ∨
      ∃ l ∈ linkCopies t u ss free, l.1 ∈ t.descendants s ∨ l.2 ∈ u.descendants d := by
  induction ss generalizing free with
  | nil => cases hs
  | cons s' ss ih =>
    rw [linkCopies]
    split
    · next hfind =>
      obtain ⟨d', -, hcopy⟩ := List.exists_of_findSome?_eq_some hfind
      obtain ⟨ls, hls, heq⟩ := Option.map_eq_some_iff.1 hcopy
      obtain ⟨rfl, rfl⟩ := Prod.mk.inj heq
      obtain ⟨l, hl, hwithin⟩ := exists_mem_of_copyLinks? hls
      have hl := List.mem_append_left (linkCopies t u ss (free.erase d')) hl
      rcases List.mem_cons.1 hs with rfl | hs
      · exact .inr ⟨l, hl, .inl hwithin.1⟩
      · by_cases heq : d = d'
        · subst heq
          exact .inr ⟨l, hl, .inr hwithin.2⟩
        · refine (ih hs ((List.mem_erase_of_ne heq).2 hd)).imp_right ?_
          rintro ⟨k, hk, hends⟩
          exact ⟨k, List.mem_append_right _ hk, hends⟩
    · next hfind =>
      rcases List.mem_cons.1 hs with rfl | hs
      · exact .inl (Option.map_eq_none_iff.1 (List.findSome?_eq_none_iff.1 hfind d hd))
      · exact ih hs hd

/-- In finished trees no copy is overlooked. -/
theorem not_copy_of_copyLinks?_eq_none (ht : t.IsFinished) (hu : u.IsFinished) (hs : s < t.count)
    (hd : d < u.count) (h : copyLinks? t u s d = none) :
    (∀ x ∈ t.strictDescendants s, t.term x ≠ u.term d) ∧
      ∀ y ∈ u.strictDescendants d, u.term y ≠ t.term s := by
  unfold copyLinks? at h
  split at h
  · cases h
  · next hbelow =>
    have hbelow' := Option.map_eq_none_iff.1 h
    constructor
    · intro x hx hterm
      have hxt := lt_count_of_mem_descendants hs (mem_descendants_of_strict hx)
      exact List.find?_eq_none.1 hbelow x hx ((ht.isIsomorphic_iff hu hxt hd).2 hterm)
    · intro y hy hterm
      have hyu := lt_count_of_mem_descendants hd (mem_descendants_of_strict hy)
      exact List.find?_eq_none.1 hbelow' y hy ((hu.isIsomorphic_iff ht hyu hs).2 hterm)

/-! ### The whole statement -/

theorem lt_count_of_mem_ownParts {n : Nat} (h : s ∈ ownParts t n) : s < t.count :=
  lt_count_of_parent (mem_children.1 (List.mem_filter.1 h).1)

theorem not_alignable_of_untouched (config : AlignmentConfig) (ht : t.IsFinished) (hu : u.IsFinished)
    (hs : s ∈ ownParts t a) (hd : d ∈ ownParts u b)
    (hs' : ∀ l ∈ compositeLinks config t u a b, l.1 ∉ t.descendants s)
    (hd' : ∀ l ∈ compositeLinks config t u a b, l.2 ∉ u.descendants d) : ¬ Alignable t u s d := by
  obtain ⟨hsources, htargets⟩ := pairParts_perm t u (ownParts t a) (ownParts u b)
  have hkinds : s ∈ (pairParts t u (ownParts t a) (ownParts u b)).unpaired →
      d ∈ (pairParts t u (ownParts t a) (ownParts u b)).free → t.kind s ≠ u.kind d :=
    kind_ne_of_unpaired
  unfold compositeLinks at hs' hd'
  dsimp only at hs' hd'
  generalize pairParts t u (ownParts t a) (ownParts u b) = parts at *
  have hlinked : ∀ l ∈ parts.paired, l.1 ≠ s ∧ l.2 ≠ d := by
    intro l hl
    have hmem : l ∈ parts.paired.flatMap (partLinks config t u) :=
      List.mem_flatMap.2 ⟨l, hl, self_mem_partLinks config t u l⟩
    constructor
    · rintro rfl
      exact hs' l (by simp [hmem]) (self_mem_descendants t l.1)
    · rintro rfl
      exact hd' l (by simp [hmem]) (self_mem_descendants u l.2)
  have hunpaired : s ∈ parts.unpaired := by
    refine (List.mem_append.1 (hsources.symm.subset hs)).resolve_left fun hpaired => ?_
    obtain ⟨l, hl, heq⟩ := List.mem_map.1 hpaired
    exact (hlinked l hl).1 heq
  have hfree : d ∈ parts.free := by
    refine (List.mem_append.1 (htargets.symm.subset hd)).resolve_left fun hpaired => ?_
    obtain ⟨l, hl, heq⟩ := List.mem_map.1 hpaired
    exact (hlinked l hl).2 heq
  have hcopy : copyLinks? t u s d = none := by
    refine (copyLinks?_eq_none_or_linked hunpaired hfree).resolve_right ?_
    rintro ⟨l, hl, hends⟩
    rcases hends with hl1 | hl2
    · exact hs' l (by simp [hl]) hl1
    · exact hd' l (by simp [hl]) hl2
  obtain ⟨hbelow, hbelow'⟩ := not_copy_of_copyLinks?_eq_none ht hu (lt_count_of_mem_ownParts hs)
    (lt_count_of_mem_ownParts hd) hcopy
  rintro (hkind | ⟨x, hx, hterm⟩ | ⟨y, hy, hterm⟩)
  · exact hkinds hunpaired hfree hkind
  · exact hbelow x hx hterm
  · exact hbelow' y hy hterm

theorem IsGroup.source_eq {g : Link × List Link} {l : Link} (h : IsGroup t u a b g) (hl : l ∈ g.2)
    (hs : s ∈ t.children a) (hls : l.1 ∈ t.descendants s) : g.1.1 = s :=
  eq_of_mem_descendants_children (mem_children.1 h.source_mem) (mem_children.1 hs) (h.within l hl).1 hls

theorem IsGroup.target_eq {g : Link × List Link} {l : Link} (h : IsGroup t u a b g) (hl : l ∈ g.2)
    (hd : d ∈ u.children b) (hld : l.2 ∈ u.descendants d) : g.1.2 = d :=
  eq_of_mem_descendants_children (mem_children.1 h.target_mem) (mem_children.1 hd) (h.within l hl).2 hld

/-- A link ends within a part on one side at least. -/
def EndsInPart (t u : Tree) (a b : Nat) (l : Link) : Prop :=
  (∃ s ∈ ownParts t a, l.1 ∈ t.descendants s) ∨ ∃ d ∈ ownParts u b, l.2 ∈ u.descendants d

/-- Then it joins neither the statements themselves nor nested blocks, and keeps out of the nested
statements on both sides. -/
theorem EndsInPart.outside {l : Link} (h : EndsInPart t u a b l) (hl : l ∈ compositeLinks config t u a b) :
    l ≠ (a, b) ∧ ¬ NestedBlocks t u a b l ∧ OutsideStatements t a l.1 ∧ OutsideStatements u b l.2 := by
  have hend : (OutsideStatements t a l.1 ∧ l.1 ≠ a) ∨ OutsideStatements u b l.2 ∧ l.2 ≠ b := by
    refine h.imp ?_ ?_
    · rintro ⟨s, hs, hls⟩
      refine ⟨outsideStatements_of_part hs hls, ?_⟩
      have hlt := lt_of_parent (mem_children.1 (List.mem_filter.1 hs).1)
      have hle := le_of_mem_descendants hls
      omega
    · rintro ⟨d, hd, hld⟩
      refine ⟨outsideStatements_of_part hd hld, ?_⟩
      have hlt := lt_of_parent (mem_children.1 (List.mem_filter.1 hd).1)
      have hle := le_of_mem_descendants hld
      omega
  have hne : l ≠ (a, b) := by
    rintro rfl
    rcases hend with hend | hend
    · exact hend.2 rfl
    · exact hend.2 rfl
  have hblocks : ¬ NestedBlocks t u a b l := by
    rintro ⟨hc, hd, hblock, hkind⟩
    rcases hend with hend | hend
    · exact hend.1 l.1 hc (Kind.isStatement_of_isBlockLike hblock) (self_mem_descendants t l.1)
    · refine hend.1 l.2 hd (Kind.isStatement_of_isBlockLike ?_) (self_mem_descendants u l.2)
      rwa [hkind]
  exact ⟨hne, hblocks, (compositeLinks_cases hl).resolve_left hblocks⟩

/-- The links that end within parts fall into groups, and no child belongs to two of them. -/
theorem exists_partGroups (config : AlignmentConfig) (t u : Tree) (a b : Nat) :
    ∃ gs : List (Link × List Link), (∀ g ∈ gs, IsGroup t u a b g) ∧
      (gs.map fun g => g.1.1).Nodup ∧ (gs.map fun g => g.1.2).Nodup ∧
      ∀ l ∈ compositeLinks config t u a b, EndsInPart t u a b l → ∃ g ∈ gs, l ∈ g.2 := by
  obtain ⟨gs, hgroups, hsources, htargets, hlinks⟩ := exists_groups config t u a b
  refine ⟨gs, hgroups, hsources, htargets, fun l hl hpart => ?_⟩
  obtain ⟨hne, hblocks, -⟩ := hpart.outside hl
  rw [← List.mem_flatMap, hlinks]
  unfold compositeLinks at hl
  simp only [List.mem_cons, List.mem_append] at hl ⊢
  rcases hl with hl | ((hl | hl) | hl) | hl
  · exact absurd hl hne
  · split at hl
    · exact absurd (nestedBlocks_of_blockLinks hl) hblocks
    · cases hl
  · exact .inl (.inl hl)
  · exact .inl (.inr hl)
  · exact .inr hl

/-- A child that holds something outside the nested statements is a part. -/
theorem OutsideStatements.mem_ownParts {n c x : Nat} (h : OutsideStatements t n x)
    (hc : c ∈ t.children n) (hx : x ∈ t.descendants c) : c ∈ ownParts t n := by
  refine List.mem_filter.2 ⟨hc, ?_⟩
  cases hkind : (t.kind c).isStatement with
  | false => rfl
  | true => exact absurd hx (h c hc hkind)

/-- The links between two composite statements of finished trees leave no parts behind that could be
linked: of two parts without links, one on each side, the kinds differ and neither has a copy of the other
below it. A part with links shares them with one child of the other statement only, which is a part too. -/
theorem compositeLinks_exhaust_parts (config : AlignmentConfig) (ht : t.IsFinished) (hu : u.IsFinished)
    (a b : Nat) :
    (∀ s ∈ ownParts t a, ∀ d ∈ ownParts u b,
      ¬ SourceTouched t (LinkSet.ofList (compositeLinks config t u a b)) s →
      ¬ TargetTouched u (LinkSet.ofList (compositeLinks config t u a b)) d → ¬ Alignable t u s d) ∧
    (∀ s ∈ ownParts t a, SourceTouched t (LinkSet.ofList (compositeLinks config t u a b)) s →
      ∃ d ∈ ownParts u b, SharesLinks t u (LinkSet.ofList (compositeLinks config t u a b)) s d ∧
        ∀ d' ∈ u.children b,
          SharesLinks t u (LinkSet.ofList (compositeLinks config t u a b)) s d' → d' = d) ∧
    (∀ d ∈ ownParts u b, TargetTouched u (LinkSet.ofList (compositeLinks config t u a b)) d →
      ∃ s ∈ ownParts t a, SharesLinks t u (LinkSet.ofList (compositeLinks config t u a b)) s d ∧
        ∀ s' ∈ t.children a,
          SharesLinks t u (LinkSet.ofList (compositeLinks config t u a b)) s' d → s' = s) := by
  simp only [SourceTouched, TargetTouched, SharesLinks, LinkSet.mem_ofList]
  obtain ⟨gs, hgroups, hsources, htargets, hmem⟩ := exists_partGroups config t u a b
  refine ⟨fun s hs d hd hs' hd' => ?_, fun s hs => ?_, fun d hd => ?_⟩
  · exact not_alignable_of_untouched config ht hu hs hd (fun l hl hls => hs' ⟨l, hl, hls⟩)
      fun l hl hld => hd' ⟨l, hl, hld⟩
  · rintro ⟨l, hl, hls⟩
    have hpart : EndsInPart t u a b l := .inl ⟨s, hs, hls⟩
    have hsa := (List.mem_filter.1 hs).1
    obtain ⟨g, hg, hlg⟩ := hmem l hl hpart
    have hgroup := hgroups g hg
    have hgs := hgroup.source_eq hlg hsa hls
    have hld := (hgroup.within l hlg).2
    refine ⟨g.1.2, (hpart.outside hl).2.2.2.mem_ownParts hgroup.target_mem hld, ⟨l, hl, hls, hld⟩, ?_⟩
    rintro d' hd' ⟨k, hk, hks, hkd⟩
    obtain ⟨g', hg', hkg⟩ := hmem k hk (.inl ⟨s, hs, hks⟩)
    have hgs' := (hgroups g' hg').source_eq hkg hsa hks
    obtain rfl := List.inj_on_of_nodup_map hsources hg hg' (hgs.trans hgs'.symm)
    exact (hgroup.target_eq hkg hd' hkd).symm
  · rintro ⟨l, hl, hld⟩
    have hpart : EndsInPart t u a b l := .inr ⟨d, hd, hld⟩
    have hdb := (List.mem_filter.1 hd).1
    obtain ⟨g, hg, hlg⟩ := hmem l hl hpart
    have hgroup := hgroups g hg
    have hgd := hgroup.target_eq hlg hdb hld
    have hls := (hgroup.within l hlg).1
    refine ⟨g.1.1, (hpart.outside hl).2.2.1.mem_ownParts hgroup.source_mem hls, ⟨l, hl, hls, hld⟩, ?_⟩
    rintro s' hs' ⟨k, hk, hks, hkd⟩
    obtain ⟨g', hg', hkg⟩ := hmem k hk (.inr ⟨d, hd, hkd⟩)
    have hgd' := (hgroups g' hg').target_eq hkg hdb hkd
    obtain rfl := List.inj_on_of_nodup_map htargets hg hg' (hgd.trans hgd'.symm)
    exact (hgroup.source_eq hkg hs' hks).symm

/-- A loop on a name, with a literal beside it and a body. -/
def loopOnName : Tree :=
  (((single ⟨Kind.forStatement, none⟩ ⟨0, 9⟩).addChild 0 ⟨Kind.simpleName, some "x"⟩ ⟨1, 2⟩).addChild 0
    ⟨Kind.numberLiteral, some "0"⟩ ⟨3, 4⟩).addChild 0 ⟨Kind.block, none⟩ ⟨5, 6⟩ |>.finish

/-- The loop with the name inside a larger expression and a call in place of the literal. -/
def loopOnExpression : Tree :=
  ((((single ⟨Kind.forStatement, none⟩ ⟨0, 9⟩).addChild 0 ⟨Kind.infixExpression, none⟩ ⟨1, 4⟩).addChild 1
    ⟨Kind.simpleName, some "x"⟩ ⟨2, 3⟩).addChild 0 ⟨Kind.methodInvocation, none⟩ ⟨5, 6⟩).addChild 0
    ⟨Kind.block, none⟩ ⟨7, 8⟩ |>.finish

/-- The name is linked with its copy, so it shares links with the expression around that and with nothing
else; the literal and the call are left, and could not be linked. -/
theorem loopOnName_parts :
    loopOnName.IsFinished ∧ loopOnExpression.IsFinished ∧
    (LinkSet.ofList (compositeLinks {} loopOnName loopOnExpression root root)).pairs =
      [(0, 0), (3, 4), (1, 2)] ∧
    ¬ Alignable loopOnName loopOnExpression 2 3 ∧
    (∀ d ∈ loopOnExpression.children root, SharesLinks loopOnName loopOnExpression
      (LinkSet.ofList (compositeLinks {} loopOnName loopOnExpression root root)) 1 d → d = 1) := by
  have ht : loopOnName.IsFinished := ⟨_, rfl⟩
  have hu : loopOnExpression.IsFinished := ⟨_, rfl⟩
  obtain ⟨hleft, hshared, -⟩ := compositeLinks_exhaust_parts {} ht hu root root
  refine ⟨ht, hu, by decide +kernel, ?_, ?_⟩
  · exact hleft 2 (by decide +kernel) 3 (by decide +kernel) (by decide +kernel) (by decide +kernel)
  · obtain ⟨d, -, -, honly⟩ := hshared 1 (by decide +kernel) (by decide +kernel)
    intro d' hd' hlinks
    rw [honly d' hd' hlinks, honly 1 (by decide +kernel) (by decide +kernel)]

end Alignment

end Counterpart
