import Counterpart.Proofs.Alignment.Confinement
import Counterpart.Proofs.Alignment.Settling
import Counterpart.Proofs.LinkSet

/-!
# What the links of composite statements touch

Two statements that hold other statements are linked by their own parts. The statements inside are left
alone: a link joins nested blocks of one kind, or its ends lie outside all nested statements
(`compositeLinks_cases`). The links fall into groups, each within a pair of children, and no child belongs
to two of these pairs (`unambiguous_groups`): blocks are zipped, parts of equal kind are used up one by one
(`pairParts_perm`), and so are the parts linked by copies (`exists_copyGroups`). Only the link of the first
blocks may cross the zipped ones, which takes a catch clause in front of a block. So without one no node is
linked twice (`compositeLinks_frame`).
-/

namespace Counterpart

/-- Take some members of one list, and from another list all that are in one part of it and some that are
in the other part. If the two lists hold no member twice, neither does what was taken. -/
theorem nodup_of_taken {α : Type} {blocks nested paired rest copied parts : List α}
    (h : (nested ++ parts).Nodup) (hblocks : blocks.Sublist nested) (hparts : (paired ++ rest).Perm parts)
    (hcopied : copied.Nodup) (hrest : ∀ c ∈ copied, c ∈ rest) :
    (blocks ++ (paired ++ copied)).Nodup := by
  obtain ⟨hnested, hnodup, hapart⟩ := List.nodup_append.1 h
  obtain ⟨hpaired, -, hpairedrest⟩ := List.nodup_append.1 (hparts.nodup_iff.2 hnodup)
  have htaken : (paired ++ copied).Nodup :=
    List.nodup_append.2 ⟨hpaired, hcopied, fun x hx c hc => hpairedrest x hx c (hrest c hc)⟩
  refine List.nodup_append.2 ⟨hnested.sublist hblocks, htaken, fun x hx y hy => ?_⟩
  refine hapart x (hblocks.subset hx) y (hparts.subset ?_)
  rcases List.mem_append.1 hy with hy | hy
  · exact List.mem_append_left _ hy
  · exact List.mem_append_right _ (hrest y hy)

namespace Alignment

open Matching Counterpart.Tree

variable {config : AlignmentConfig} {t u : Tree} {a b : Nat}

/-! ### Outside the nested statements -/

/-- A node that is no nested statement of `n` and does not lie below one. -/
def OutsideStatements (t : Tree) (n x : Nat) : Prop :=
  ∀ c ∈ t.children n, (t.kind c).isStatement = true → x ∉ t.descendants c

theorem outsideStatements_self (t : Tree) (n : Nat) : OutsideStatements t n n := by
  intro c hc _ hn
  have hlt := lt_of_parent (mem_children.1 hc)
  have hle := le_of_mem_descendants hn
  omega

/-- What lies within a part of a statement lies outside the statements nested beside it. -/
theorem outsideStatements_of_part {n s x : Nat} (hs : s ∈ ownParts t n) (hx : x ∈ t.descendants s) :
    OutsideStatements t n x := by
  intro c hc hstatement hxc
  obtain ⟨hsn, hpart⟩ := List.mem_filter.1 hs
  obtain rfl := eq_of_mem_descendants_children (mem_children.1 hsn) (mem_children.1 hc) hx hxc
  simp [hstatement] at hpart

/-- Two children are nested blocks, or both catch clauses, of the two statements. -/
def NestedBlocks (t u : Tree) (a b : Nat) (l : Link) : Prop :=
  l.1 ∈ t.children a ∧ l.2 ∈ u.children b ∧ (t.kind l.1).isBlockLike = true ∧
    u.kind l.2 = t.kind l.1

theorem nestedBlocks_of_blockLinks {l : Link} (h : l ∈ blockLinks t u a b) : NestedBlocks t u a b l := by
  obtain ⟨c, d⟩ := l
  rw [blockLinks, Option.mem_toList] at h
  obtain ⟨hc, hd⟩ := both?_eq_some_iff.1 h
  have hkindc : t.kind c = Kind.block := by simpa using List.find?_some hc
  have hkindd : u.kind d = Kind.block := by simpa using List.find?_some hd
  refine ⟨childOfKind?_mem hc, childOfKind?_mem hd, ?_, ?_⟩
  · show (t.kind c).isBlockLike = true
    rw [hkindc]
    rfl
  · show u.kind d = t.kind c
    rw [hkindc, hkindd]

/-- A link between two composite statements joins nested blocks of one kind, or keeps out of the nested
statements on both sides. -/
theorem compositeLinks_cases {l : Link} (h : l ∈ compositeLinks config t u a b) :
    NestedBlocks t u a b l ∨ OutsideStatements t a l.1 ∧ OutsideStatements u b l.2 := by
  obtain ⟨hpaired, hunpaired, hfree⟩ :=
    pairParts_subset (t := t) (u := u) (ownParts t a) (ownParts u b)
  unfold compositeLinks at h
  simp only [List.mem_cons, List.mem_append, List.mem_flatMap] at h
  rcases h with rfl | ((h | h) | ⟨k, hk, h⟩) | h
  · exact .inr ⟨outsideStatements_self t a, outsideStatements_self u b⟩
  · split at h
    · exact .inl (nestedBlocks_of_blockLinks h)
    · cases h
  · obtain ⟨hzip, hkind⟩ := List.mem_filter.1 h
    obtain ⟨hc, hd⟩ := List.of_mem_zip hzip
    obtain ⟨hca, hblock⟩ := List.mem_filter.1 hc
    exact .inl ⟨hca, (List.mem_filter.1 hd).1, hblock, (beq_iff_eq.1 hkind).symm⟩
  · have hwithin := partLinks_within h
    exact .inr ⟨outsideStatements_of_part (hpaired k hk).1 hwithin.1,
      outsideStatements_of_part (hpaired k hk).2 hwithin.2⟩
  · obtain ⟨s, hs, d, hd, hwithin⟩ := linkCopies_within h
    exact .inr ⟨outsideStatements_of_part (hunpaired s hs) hwithin.1,
      outsideStatements_of_part (hfree d hd) hwithin.2⟩

theorem not_mem_strictDescendants_sibling {n c x : Nat} (hc : c ∈ t.children n) (hx : x ∈ t.children n) :
    x ∉ t.strictDescendants c := by
  intro hbelow
  obtain rfl := eq_of_mem_descendants_children (mem_children.1 hc) (mem_children.1 hx)
    (mem_descendants_of_strict hbelow) (self_mem_descendants t x)
  exact not_mem_strictDescendants_self t c hbelow

/-! ### Links that join no node twice -/

/-- No node is an end of two of the links. -/
def Unambiguous (ls : List Link) : Prop :=
  ∀ k ∈ ls, ∀ l ∈ ls, k.1 = l.1 ↔ k.2 = l.2

theorem unambiguous_overlay (h : t.term a = u.term b) : Unambiguous (t.overlay u a b) :=
  fun _ hk _ hl => fst_eq_iff_snd_eq h hk hl

theorem Unambiguous.of_oneToOne {m : Matching} (h : m.OneToOne) : Unambiguous m.pairs := by
  rintro ⟨s, d⟩ hk ⟨s', d'⟩ hl
  have hd := (h.target?_eq_some_iff s d).2 hk
  have hd' := (h.target?_eq_some_iff s' d').2 hl
  have hs := (h.source?_eq_some_iff s d).2 hk
  have hs' := (h.source?_eq_some_iff s' d').2 hl
  constructor
  · rintro rfl
    exact Option.some.inj (hd.symm.trans hd')
  · rintro rfl
    exact Option.some.inj (hs.symm.trans hs')

theorem unambiguous_partLinks (config : AlignmentConfig) (t u : Tree) (l : Link) :
    Unambiguous (partLinks config t u l) := by
  unfold partLinks
  split
  · next hiso => exact unambiguous_overlay (term_eq_of_isIsomorphic hiso)
  · exact .of_oneToOne (oneToOne_align config t u l.1 l.2)

theorem term_eq_of_copyBelow? {n d x : Nat} (h : copyBelow? t n u d = some x) : t.term x = u.term d :=
  term_eq_of_isIsomorphic (List.find?_some (p := fun n => t.isIsomorphic n u d) h)

theorem unambiguous_copyLinks? {s d : Nat} {links : List Link}
    (h : copyLinks? t u s d = some links) : Unambiguous links := by
  unfold copyLinks? at h
  split at h
  · next x hx =>
    obtain rfl := Option.some.inj h
    exact unambiguous_overlay (term_eq_of_copyBelow? hx)
  · obtain ⟨y, hy, rfl⟩ := Option.map_eq_some_iff.1 h
    exact unambiguous_overlay (term_eq_of_copyBelow? hy).symm

/-- A pair of children of `a` and `b` with links that lie within it and join no node twice. -/
structure IsGroup (t u : Tree) (a b : Nat) (g : Link × List Link) : Prop where
  source_mem : g.1.1 ∈ t.children a
  target_mem : g.1.2 ∈ u.children b
  within : ∀ l ∈ g.2, LinkWithin t u g.1 l
  unambiguous : Unambiguous g.2

/-- The ends of a link of a group lie strictly below `a` and `b`. -/
theorem IsGroup.ne_root {g : Link × List Link} (h : IsGroup t u a b g) {l : Link} (hl : l ∈ g.2) :
    l.1 ≠ a ∧ l.2 ≠ b := by
  have hs := lt_of_parent (mem_children.1 h.source_mem)
  have hd := lt_of_parent (mem_children.1 h.target_mem)
  have hs' := le_of_mem_descendants (h.within l hl).1
  have hd' := le_of_mem_descendants (h.within l hl).2
  exact ⟨by omega, by omega⟩

/-- If no child belongs to two groups, the links of all groups and that of `a` and `b` join no node twice. -/
theorem unambiguous_groups {gs : List (Link × List Link)} (h : ∀ g ∈ gs, IsGroup t u a b g)
    (hsources : (gs.map fun g => g.1.1).Nodup) (htargets : (gs.map fun g => g.1.2).Nodup) :
    Unambiguous ((a, b) :: gs.flatMap Prod.snd) := by
  have hbelow : ∀ l ∈ gs.flatMap Prod.snd, l.1 ≠ a ∧ l.2 ≠ b := by
    intro l hl
    obtain ⟨g, hg, hl⟩ := List.mem_flatMap.1 hl
    exact (h g hg).ne_root hl
  intro k hk l hl
  rcases List.mem_cons.1 hk with rfl | hk
  · rcases List.mem_cons.1 hl with rfl | hl
    · simp
    · simp [(hbelow l hl).1.symm, (hbelow l hl).2.symm]
  rcases List.mem_cons.1 hl with rfl | hl
  · simp [(hbelow k hk).1, (hbelow k hk).2]
  obtain ⟨g, hg, hk⟩ := List.mem_flatMap.1 hk
  obtain ⟨g', hg', hl⟩ := List.mem_flatMap.1 hl
  have hgk := (h g hg).within k hk
  have hgl := (h g' hg').within l hl
  -- links with a common end belong to one group, since the subtrees of two children are apart
  constructor
  · intro heq
    have hchild := eq_of_mem_descendants_children (mem_children.1 (h g hg).source_mem)
      (mem_children.1 (h g' hg').source_mem) hgk.1 (heq ▸ hgl.1)
    obtain rfl := List.inj_on_of_nodup_map hsources hg hg' hchild
    exact ((h g hg).unambiguous k hk l hl).1 heq
  · intro heq
    have hchild := eq_of_mem_descendants_children (mem_children.1 (h g hg).target_mem)
      (mem_children.1 (h g' hg').target_mem) hgk.2 (heq ▸ hgl.2)
    obtain rfl := List.inj_on_of_nodup_map htargets hg hg' hchild
    exact ((h g hg).unambiguous k hk l hl).2 heq

/-! ### Groups of links -/

/-- Every part is paired or left over. -/
theorem pairParts_perm (t u : Tree) (ss free : List Nat) :
    ((pairParts t u ss free).paired.map Prod.fst ++ (pairParts t u ss free).unpaired).Perm ss ∧
    ((pairParts t u ss free).paired.map Prod.snd ++ (pairParts t u ss free).free).Perm free := by
  induction ss generalizing free with
  | nil => simp [pairParts]
  | cons s ss ih =>
    rw [pairParts]
    split
    · next d hfind =>
      obtain ⟨hsources, htargets⟩ := ih (free.erase d)
      have hd : d ∈ free := List.mem_of_find?_eq_some hfind
      exact ⟨hsources.cons s, (htargets.cons d).trans (List.perm_cons_erase hd).symm⟩
    · obtain ⟨hsources, htargets⟩ := ih free
      exact ⟨List.perm_middle.trans (hsources.cons s), htargets⟩

/-- Links by copies come in groups, one for each part that found a copy, and every target part is used at
most once. -/
theorem exists_copyGroups (t u : Tree) (ss : List Nat) {free : List Nat} (hfree : free.Nodup) :
    ∃ gs : List (Link × List Link), linkCopies t u ss free = gs.flatMap Prod.snd ∧
      (∀ g ∈ gs, copyLinks? t u g.1.1 g.1.2 = some g.2) ∧
      (gs.map fun g => g.1.1).Sublist ss ∧
      (gs.map fun g => g.1.2).Nodup ∧ ∀ g ∈ gs, g.1.2 ∈ free := by
  induction ss generalizing free with
  | nil => exact ⟨[], by simp [linkCopies]⟩
  | cons s ss ih =>
    rw [linkCopies]
    split
    · next d links hfind =>
      obtain ⟨d', hd', hcopy⟩ := List.exists_of_findSome?_eq_some hfind
      obtain ⟨ls, hls, heq⟩ := Option.map_eq_some_iff.1 hcopy
      obtain ⟨rfl, rfl⟩ := Prod.mk.inj heq
      obtain ⟨gs, hlinks, hcopies, hsources, htargets, hmem⟩ := ih (hfree.erase d')
      refine ⟨((s, d'), ls) :: gs, ?_, ?_, hsources.cons_cons s, ?_, ?_⟩
      · rw [List.flatMap_cons, hlinks]
      · exact List.forall_mem_cons.2 ⟨hls, hcopies⟩
      · rw [List.map_cons, List.nodup_cons]
        refine ⟨fun hused => ?_, htargets⟩
        obtain ⟨g, hg, hgd⟩ := List.mem_map.1 hused
        exact (hfree.mem_erase_iff.1 (hmem g hg)).1 hgd
      · exact List.forall_mem_cons.2 ⟨hd', fun g hg => List.mem_of_mem_erase (hmem g hg)⟩
    · obtain ⟨gs, hlinks, hcopies, hsources, hrest⟩ := ih hfree
      exact ⟨gs, hlinks, hcopies, hsources.cons s, hrest⟩

/-- Nested blocks and parts of a statement have nothing in common. -/
theorem nodup_blocks_append_parts (t : Tree) (n : Nat) : (nestedBlocks t n ++ ownParts t n).Nodup := by
  refine List.nodup_append.2
    ⟨(nodup_children t n).filter _, (nodup_children t n).filter _, fun c hc d hd heq => ?_⟩
  subst heq
  have hblock := Kind.isStatement_of_isBlockLike (List.mem_filter.1 hc).2
  have hpart := (List.mem_filter.1 hd).2
  simp [hblock] at hpart

/-- The nested blocks that are linked by their order. -/
def zippedBlocks (t u : Tree) (a b : Nat) : List Link :=
  ((nestedBlocks t a).zip (nestedBlocks u b)).filter fun l => t.kind l.1 == u.kind l.2

theorem isGroup_block {l : Link} (h : l ∈ zippedBlocks t u a b) : IsGroup t u a b (l, [l]) := by
  obtain ⟨hc, hd⟩ := List.of_mem_zip (List.mem_filter.1 h).1
  refine ⟨(List.mem_filter.1 hc).1, (List.mem_filter.1 hd).1, ?_, ?_⟩
  · simpa using LinkWithin.refl t u l
  · simp [Unambiguous]

theorem isGroup_part (config : AlignmentConfig) {l : Link} (hs : l.1 ∈ ownParts t a)
    (hd : l.2 ∈ ownParts u b) : IsGroup t u a b (l, partLinks config t u l) :=
  ⟨(List.mem_filter.1 hs).1, (List.mem_filter.1 hd).1, fun _ => partLinks_within,
    unambiguous_partLinks config t u l⟩

theorem isGroup_copy {g : Link × List Link} (h : copyLinks? t u g.1.1 g.1.2 = some g.2)
    (hs : g.1.1 ∈ ownParts t a) (hd : g.1.2 ∈ ownParts u b) : IsGroup t u a b g :=
  ⟨(List.mem_filter.1 hs).1, (List.mem_filter.1 hd).1, fun _ => copyLinks?_within h,
    unambiguous_copyLinks? h⟩

/-- The links between composite statements, but for that of the first blocks, fall into groups, and no child
belongs to two of them. -/
theorem exists_groups (config : AlignmentConfig) (t u : Tree) (a b : Nat) :
    ∃ gs : List (Link × List Link), (∀ g ∈ gs, IsGroup t u a b g) ∧
      (gs.map fun g => g.1.1).Nodup ∧ (gs.map fun g => g.1.2).Nodup ∧
      gs.flatMap Prod.snd = zippedBlocks t u a b ++
        (pairParts t u (ownParts t a) (ownParts u b)).paired.flatMap (partLinks config t u) ++
        linkCopies t u (pairParts t u (ownParts t a) (ownParts u b)).unpaired
          (pairParts t u (ownParts t a) (ownParts u b)).free := by
  have hnodupt := nodup_blocks_append_parts t a
  have hnodupu := nodup_blocks_append_parts u b
  obtain ⟨hsources, htargets⟩ := pairParts_perm t u (ownParts t a) (ownParts u b)
  obtain ⟨hpaired, hunpaired, hfree⟩ :=
    pairParts_subset (t := t) (u := u) (ownParts t a) (ownParts u b)
  generalize pairParts t u (ownParts t a) (ownParts u b) = parts at *
  have hpartst := hsources.nodup_iff.2 (List.nodup_append.1 hnodupt).2.1
  have hpartsu := htargets.nodup_iff.2 (List.nodup_append.1 hnodupu).2.1
  obtain ⟨copies, hlinks, hcopies, hcopysources, hcopytargets, hcopyfree⟩ :=
    exists_copyGroups t u parts.unpaired (List.nodup_append.1 hpartsu).2.1
  have hcopyunpaired : ∀ g ∈ copies, g.1.1 ∈ parts.unpaired := fun g hg =>
    hcopysources.subset (List.mem_map_of_mem (f := fun g => g.1.1) hg)
  refine ⟨(zippedBlocks t u a b).map (fun l => (l, [l])) ++
    (parts.paired.map (fun l => (l, partLinks config t u l)) ++ copies), ?_, ?_, ?_, ?_⟩
  · simp only [List.forall_mem_append, List.forall_mem_map]
    exact ⟨fun l hl => isGroup_block hl, fun l hl => isGroup_part config (hpaired l hl).1 (hpaired l hl).2,
      fun g hg => isGroup_copy (hcopies g hg) (hunpaired _ (hcopyunpaired g hg))
        (hfree _ (hcopyfree g hg))⟩
  · have hblocks : ((zippedBlocks t u a b).map Prod.fst).Sublist (nestedBlocks t a) :=
      (List.filter_sublist.map Prod.fst).trans (map_fst_zip_sublist _ _)
    have hnodup := nodup_of_taken hnodupt hblocks hsources
      ((List.nodup_append.1 hpartst).2.1.sublist hcopysources) fun c hc => hcopysources.subset hc
    simpa [Function.comp_def] using hnodup
  · have hblocks : ((zippedBlocks t u a b).map Prod.snd).Sublist (nestedBlocks u b) :=
      (List.filter_sublist.map Prod.snd).trans (map_snd_zip_sublist _ _)
    have hnodup := nodup_of_taken hnodupu hblocks htargets hcopytargets fun c hc => by
      obtain ⟨g, hg, rfl⟩ := List.mem_map.1 hc
      exact hcopyfree g hg
    simpa [Function.comp_def] using hnodup
  · rw [List.flatMap_append, List.flatMap_append, List.flatMap_map, List.flatMap_map, hlinks,
      List.flatMap_singleton', List.append_assoc]

/-! ### The first blocks -/

/-- No catch clause among the children of a node stands before the first block. -/
def CatchesFollowBlock (t : Tree) (n : Nat) : Prop :=
  ∀ d ∈ t.childOfKind? n Kind.block, ∀ c ∈ t.children n, t.kind c = Kind.catchClause →
    ¬ t.position c < t.position d

instance (t : Tree) (n : Nat) : Decidable (CatchesFollowBlock t n) :=
  inferInstanceAs (Decidable (∀ d ∈ t.childOfKind? n Kind.block, _))

/-- Then the first block is the first of all nested blocks. -/
theorem nestedBlocks_eq_cons {n d : Nat} (h : CatchesFollowBlock t n)
    (hd : t.childOfKind? n Kind.block = some d) : ∃ rest, nestedBlocks t n = d :: rest := by
  obtain ⟨hkind, before, after, hsplit, hbefore⟩ := List.find?_eq_some_iff_append.1 hd
  have hkindd : t.kind d = Kind.block := by simpa using hkind
  have hparent : ∀ c, c ∈ before ∨ c = d → t.parent c = some n := by
    intro c hc
    refine mem_children.1 ?_
    rw [hsplit]
    rcases hc with hc | rfl
    · exact List.mem_append_left _ hc
    · exact List.mem_append_right _ List.mem_cons_self
  have hnone : ∀ c ∈ before, ¬ (t.kind c).isBlockLike = true := by
    intro c hc hblock
    have hnotblock : ¬ t.kind c = Kind.block := by simpa using hbefore c hc
    have hcatch : t.kind c = Kind.catchClause := by
      simpa [Kind.isBlockLike, hnotblock] using hblock
    refine h d hd c (mem_children.2 (hparent c (.inl hc))) hcatch ?_
    have hdbefore : d ∉ before := fun hmem => by simpa [hkindd] using hbefore d hmem
    rw [position_eq_idxOf (hparent c (.inl hc)), position_eq_idxOf (hparent d (.inr rfl)), hsplit,
      List.idxOf_append_of_mem hc, List.idxOf_append_of_notMem hdbefore]
    have hlt := List.idxOf_lt_length_of_mem hc
    omega
  refine ⟨after.filter fun c => (t.kind c).isBlockLike, ?_⟩
  have hdblock : (t.kind d).isBlockLike = true := by rw [hkindd]; rfl
  rw [nestedBlocks, hsplit, List.filter_append, List.filter_eq_nil_iff.2 hnone, List.nil_append,
    List.filter_cons, if_pos hdblock]

/-- Then the first blocks are linked with each other by their order already. -/
theorem mem_zippedBlocks_of_blockLinks (ht : CatchesFollowBlock t a) (hu : CatchesFollowBlock u b)
    {l : Link} (h : l ∈ blockLinks t u a b) : l ∈ zippedBlocks t u a b := by
  obtain ⟨-, -, -, hkind⟩ := nestedBlocks_of_blockLinks h
  obtain ⟨c, d⟩ := l
  rw [blockLinks, Option.mem_toList] at h
  obtain ⟨hc, hd⟩ := both?_eq_some_iff.1 h
  obtain ⟨cs, hcs⟩ := nestedBlocks_eq_cons ht hc
  obtain ⟨ds, hds⟩ := nestedBlocks_eq_cons hu hd
  rw [zippedBlocks, hcs, hds, List.zip_cons_cons]
  exact List.mem_filter.2 ⟨List.mem_cons_self, beq_iff_eq.2 hkind.symm⟩

/-! ### The whole statement -/

theorem unambiguous_compositeLinks (config : AlignmentConfig) (ht : CatchesFollowBlock t a)
    (hu : CatchesFollowBlock u b) : Unambiguous (compositeLinks config t u a b) := by
  obtain ⟨gs, hgroups, hsources, htargets, hlinks⟩ := exists_groups config t u a b
  have hall := unambiguous_groups hgroups hsources htargets
  rw [hlinks] at hall
  have hmem : ∀ l ∈ compositeLinks config t u a b, l ∈ (a, b) :: (zippedBlocks t u a b ++
      (pairParts t u (ownParts t a) (ownParts u b)).paired.flatMap (partLinks config t u) ++
      linkCopies t u (pairParts t u (ownParts t a) (ownParts u b)).unpaired
        (pairParts t u (ownParts t a) (ownParts u b)).free) := by
    intro l hl
    unfold compositeLinks at hl
    simp only [List.mem_cons, List.mem_append] at hl ⊢
    rcases hl with hl | ((hl | hl) | hl) | hl
    · exact .inl hl
    · split at hl
      · exact .inr (.inl (.inl (mem_zippedBlocks_of_blockLinks ht hu hl)))
      · cases hl
    · exact .inr (.inl (.inl hl))
    · exact .inr (.inl (.inr hl))
    · exact .inr (.inr hl)
  exact fun k hk l hl => hall k (hmem k hk) l (hmem l hl)

/-- The links between two composite statements lie within them. They touch nothing below the statements
nested directly in these, and of the nested statements themselves only blocks and catch clauses, each
linked with a child of the same kind. If on both sides no catch clause stands before the first block, no
node is linked twice. -/
theorem compositeLinks_frame (config : AlignmentConfig) (t u : Tree) (a b : Nat) :
    (∀ x y, (x, y) ∈ (LinkSet.ofList (compositeLinks config t u a b)).pairs →
      (x ∈ t.descendants a ∧ y ∈ u.descendants b) ∧
      (∀ c ∈ t.children a, (t.kind c).isStatement = true → x ∉ t.strictDescendants c ∧
        (x = c → (t.kind c).isBlockLike = true ∧ y ∈ u.children b ∧ u.kind y = t.kind c)) ∧
      (∀ d ∈ u.children b, (u.kind d).isStatement = true → y ∉ u.strictDescendants d ∧
        (y = d → (u.kind d).isBlockLike = true ∧ x ∈ t.children a ∧ t.kind x = u.kind d))) ∧
    (CatchesFollowBlock t a → CatchesFollowBlock u b →
      ((LinkSet.ofList (compositeLinks config t u a b)).pairs.map Prod.fst).Nodup ∧
      ((LinkSet.ofList (compositeLinks config t u a b)).pairs.map Prod.snd).Nodup) := by
  refine ⟨fun x y hxy => ?_, fun ht hu => ?_⟩
  · have hlink := LinkSet.mem_ofList.1 hxy
    refine ⟨compositeLinks_within hlink, ?_⟩
    rcases compositeLinks_cases hlink with ⟨hx, hy, hblock, hkind⟩ | ⟨hx, hy⟩
    · refine ⟨fun c hc _ => ⟨not_mem_strictDescendants_sibling hc hx, ?_⟩,
        fun d hd _ => ⟨not_mem_strictDescendants_sibling hd hy, ?_⟩⟩
      · rintro rfl
        exact ⟨hblock, hy, hkind⟩
      · rintro rfl
        exact ⟨hkind ▸ hblock, hx, hkind.symm⟩
    · refine ⟨fun c hc hstatement => ⟨fun hbelow => ?_, ?_⟩, fun d hd hstatement => ⟨fun hbelow => ?_, ?_⟩⟩
      · exact hx c hc hstatement (mem_descendants_of_strict hbelow)
      · rintro rfl
        exact absurd (self_mem_descendants t x) (hx x hc hstatement)
      · exact hy d hd hstatement (mem_descendants_of_strict hbelow)
      · rintro rfl
        exact absurd (self_mem_descendants u y) (hy y hd hstatement)
  · have hone := unambiguous_compositeLinks config ht hu
    have hnodup := (LinkSet.wellFormed_ofList (compositeLinks config t u a b)).nodup
    refine ⟨List.Nodup.map_on (fun k hk l hl heq => ?_) hnodup,
      List.Nodup.map_on (fun k hk l hl heq => ?_) hnodup⟩
    · exact Prod.ext heq ((hone k (LinkSet.mem_ofList.1 hk) l (LinkSet.mem_ofList.1 hl)).1 heq)
    · exact Prod.ext ((hone k (LinkSet.mem_ofList.1 hk) l (LinkSet.mem_ofList.1 hl)).2 heq) heq

/-- A try statement on a name, with a body that returns and a catch clause. -/
def tryName : Tree :=
  ((((single ⟨Kind.tryStatement, none⟩ ⟨0, 9⟩).addChild 0 ⟨Kind.simpleName, some "x"⟩ ⟨1, 2⟩).addChild 0
    ⟨Kind.block, none⟩ ⟨3, 6⟩).addChild 2 ⟨Kind.returnStatement, none⟩ ⟨4, 5⟩).addChild 0
    ⟨Kind.catchClause, none⟩ ⟨7, 8⟩ |>.finish

/-- The statement with the name inside a larger expression, an empty body and a catch clause that does
something. -/
def tryExpression : Tree :=
  (((((single ⟨Kind.tryStatement, none⟩ ⟨0, 9⟩).addChild 0 ⟨Kind.infixExpression, none⟩ ⟨1, 4⟩).addChild 1
    ⟨Kind.simpleName, some "x"⟩ ⟨2, 3⟩).addChild 0 ⟨Kind.block, none⟩ ⟨5, 6⟩).addChild 0
    ⟨Kind.catchClause, none⟩ ⟨7, 9⟩).addChild 4 ⟨Kind.block, none⟩ ⟨8, 9⟩ |>.finish

/-- The bodies are linked by both rules for blocks and yet once, and the return inside is left alone. -/
theorem tryName_links :
    CatchesFollowBlock tryName root ∧ CatchesFollowBlock tryExpression root ∧
    (LinkSet.ofList (compositeLinks {} tryName tryExpression root root)).pairs =
      [(0, 0), (2, 3), (4, 4), (1, 2)] ∧
    (2 ∈ tryName.children root ∧ (tryName.kind 2).isBlockLike = true ∧
      3 ∈ tryExpression.children root ∧ tryExpression.kind 3 = tryName.kind 2) ∧
    ((LinkSet.ofList (compositeLinks {} tryName tryExpression root root)).pairs.map Prod.fst).Nodup ∧
    ((LinkSet.ofList (compositeLinks {} tryName tryExpression root root)).pairs.map Prod.snd).Nodup := by
  have ht : CatchesFollowBlock tryName root := by decide +kernel
  have hu : CatchesFollowBlock tryExpression root := by decide +kernel
  have hpairs : (LinkSet.ofList (compositeLinks {} tryName tryExpression root root)).pairs =
      [(0, 0), (2, 3), (4, 4), (1, 2)] := by decide +kernel
  have hmem : 2 ∈ tryName.children root := by decide +kernel
  obtain ⟨hframe, hone⟩ := compositeLinks_frame {} tryName tryExpression root root
  have hbody := (hframe 2 3 (by simp [hpairs])).2.1 2 hmem (by decide +kernel)
  exact ⟨ht, hu, hpairs, ⟨hmem, hbody.2 rfl⟩, hone ht hu⟩

end Alignment

end Counterpart
