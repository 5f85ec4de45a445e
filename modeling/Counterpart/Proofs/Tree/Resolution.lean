import Counterpart.Proofs.Tree.Positions
import Counterpart.Tree.Search

/-!
# Finding a node by its span

The way down to a range goes at each node into the first child that contains it (`trail_subtree`). If spans
lie within those of the parents and no two siblings cover the same byte, the nodes around a range that covers
something are all on that way (`HasEnclosedSpans.mem_enclosingNodes`), each below the one before it
(`pairwise_enclosingNodes`). So a search from the end of the way finds the deepest node of a kind, and
resolving is exact (`resolve_deepest`). In a tree whose spans are strictly nested no two nodes have the same
span (`HasNestedSpans.span_injective`), and a node is found by its span, with or without its kind
(`HasNestedSpans.resolve_span`).
-/

namespace Counterpart

/-! ### Bytes -/

namespace Span

/-- Whether the byte at an offset is covered. -/
def Covers (s : Span) (offset : Nat) : Prop :=
  s.start ≤ offset ∧ offset < s.stop

/-- No byte is covered by both spans. -/
def Apart (s r : Span) : Prop :=
  ∀ offset, ¬ (s.Covers offset ∧ r.Covers offset)

theorem apart_iff {s r : Span} : s.Apart r ↔ min s.stop r.stop ≤ max s.start r.start := by
  constructor
  · intro h
    have hmax := h (max s.start r.start)
    simp only [Covers] at hmax
    omega
  · intro h offset hboth
    simp only [Covers] at hboth
    omega

instance (s r : Span) : Decidable (s.Apart r) :=
  decidable_of_iff _ apart_iff.symm

/-- A range that covers something lies within no more than one of two spans that are apart. -/
theorem Apart.not_contains {s r range : Span} (h : s.Apart r) (hrange : range.start < range.stop)
    (hs : s.contains range = true) : ¬ r.contains range = true := by
  intro hr
  have hs := contains_iff.1 hs
  have hr := contains_iff.1 hr
  exact h range.start ⟨⟨hs.1, by omega⟩, ⟨hr.1, by omega⟩⟩

end Span

/-- The last element of a list that fits comes after all others that fit. -/
theorem find?_reverse_eq_some {α : Type} {R : α → α → Prop} {xs : List α} {p : α → Bool} {x : α}
    (hxs : xs.Pairwise R) (h : xs.reverse.find? p = some x) :
    x ∈ xs ∧ p x = true ∧ ∀ y ∈ xs, p y = true → y = x ∨ R y x := by
  obtain ⟨hx, after, before, hsplit, hafter⟩ := List.find?_eq_some_iff_append.1 h
  have hsplit : xs = before.reverse ++ x :: after.reverse := by
    rw [← List.reverse_reverse xs, hsplit]
    simp
  subst hsplit
  refine ⟨by simp, hx, fun y hy hpy => ?_⟩
  rcases List.mem_append.1 hy with hy | hy
  · exact .inr ((List.pairwise_append.1 hxs).2.2 y hy x List.mem_cons_self)
  · rcases List.mem_cons.1 hy with rfl | hy
    · exact .inl rfl
    · have hnot := hafter y (List.mem_reverse.1 hy)
      rw [hpy] at hnot
      cases hnot

namespace Tree

variable {t : Tree}

/-! ### The way down -/

theorem trailIn_subtrees (range : Span) (cs : List Nat) :
    t.trailIn range (cs.map t.subtree) =
      ((cs.find? fun c => (t.span c).contains range).map fun c => t.trail range (t.subtree c)).getD [] := by
  induction cs with
  | nil => rfl
  | cons c cs ih =>
    rw [List.map_cons, trailIn, value_subtree, List.find?_cons]
    cases (t.span c).contains range with
    | true => rfl
    | false => exact ih

/-- The way down from a node is the node, then the way down from its first child that contains the
range. -/
theorem trail_subtree (range : Span) (n : Nat) :
    t.trail range (t.subtree n) =
      n :: (((t.children n).find? fun c => (t.span c).contains range).map
        fun c => t.trail range (t.subtree c)).getD [] := by
  rw [subtree_eq, trail, trailIn_subtrees]

/-- What holds where the way down begins, and passes from a node to a child that contains the range, holds
all the way. -/
theorem forall_mem_trail {range : Span} {P : Nat → Prop} {n : Nat} (hn : P n)
    (hstep : ∀ m, P m → ∀ c ∈ t.children m, (t.span c).contains range = true → P c) :
    ∀ k ∈ t.trail range (t.subtree n), P k := by
  induction n using children_induction (t := t) with
  | step n ih =>
    rw [trail_subtree]
    cases hfind : (t.children n).find? fun c => (t.span c).contains range with
    | none => exact List.forall_mem_singleton.2 hn
    | some c =>
      have hc := List.mem_of_find?_eq_some hfind
      have hcr := List.find?_some (p := fun c => (t.span c).contains range) hfind
      exact List.forall_mem_cons.2 ⟨hn, ih c hc (hstep n hn c hc hcr)⟩

/-- The way down stays below the node where it begins. -/
theorem mem_descendants_of_mem_trail {range : Span} {n k : Nat} (h : k ∈ t.trail range (t.subtree n)) :
    k ∈ t.descendants n :=
  forall_mem_trail (P := (· ∈ t.descendants n)) (self_mem_descendants t n)
    (fun _ hm _ hc _ => mem_descendants_trans hm (mem_descendants_of_child hc)) k h

theorem lt_count_of_mem_enclosingNodes {range : Span} {n : Nat} (h : n ∈ t.enclosingNodes range) :
    n < t.count := by
  unfold enclosingNodes at h
  split at h
  · exact lt_count_of_mem_descendants t.root_lt_count (mem_descendants_of_mem_trail h)
  · cases h

/-- On the way down every node lies below those before it. -/
theorem pairwise_trail (range : Span) (n : Nat) :
    (t.trail range (t.subtree n)).Pairwise fun m k => k ∈ t.strictDescendants m := by
  induction n using children_induction (t := t) with
  | step n ih =>
    rw [trail_subtree]
    cases hfind : (t.children n).find? fun c => (t.span c).contains range with
    | none => exact List.pairwise_singleton _ n
    | some c =>
      have hc := List.mem_of_find?_eq_some hfind
      refine List.pairwise_cons.2 ⟨fun k hk => ?_, ih c hc⟩
      exact mem_strictDescendants_iff.2 ⟨c, hc, mem_descendants_of_mem_trail hk⟩

theorem pairwise_enclosingNodes (t : Tree) (range : Span) :
    (t.enclosingNodes range).Pairwise fun m k => k ∈ t.strictDescendants m := by
  unfold enclosingNodes
  split
  · exact pairwise_trail range root
  · exact List.Pairwise.nil

/-! ### The deepest node -/

/-- The number of nodes on the way from a node up to the root, both counted. -/
def depth (t : Tree) (n : Nat) : Nat :=
  (t.ancestors n).length

theorem depth_of_parent {n p : Nat} (h : t.parent n = some p) : t.depth n = t.depth p + 1 := by
  rw [depth, ancestors_eq, h]
  rfl

theorem depth_le_of_mem_descendants {n m : Nat} (h : m ∈ t.descendants n) : t.depth n ≤ t.depth m := by
  induction m using Nat.strongRecOn with
  | ind m ih =>
    rcases mem_descendants_iff_parent.1 h with rfl | ⟨p, hp, hpn⟩
    · exact Nat.le_refl _
    · have hup := ih p (lt_of_parent hp) hpn
      have hdepth := depth_of_parent hp
      omega

theorem depth_lt_of_mem_strictDescendants {n m : Nat} (h : m ∈ t.strictDescendants n) :
    t.depth n < t.depth m := by
  obtain ⟨c, hc, hm⟩ := mem_strictDescendants_iff.1 h
  have hbelow := depth_le_of_mem_descendants hm
  have hdepth := depth_of_parent (mem_children.1 hc)
  omega

/-- The deepest of the nodes with a property: all others with it lie above it. -/
structure IsDeepest (t : Tree) (P : Nat → Prop) (n : Nat) : Prop where
  lt_count : n < t.count
  holds : P n
  below : ∀ m < t.count, P m → n ∈ t.descendants m
  deeper : ∀ m < t.count, P m → m ≠ n → t.depth m < t.depth n

/-- The last node on the way down to a range of which `p` holds. -/
def innermost? (t : Tree) (range : Span) (p : Nat → Bool) : Option Nat :=
  (t.enclosingNodes range).reverse.find? p

/-- Resolving looks for the innermost node that has the span and fits, then, for kinds that a range may lie
inside, for the innermost one that fits. -/
theorem resolve_eq_innermost? (t : Tree) (range : Span) (hint : Option Kind) :
    t.resolve range hint =
      (t.innermost? range fun n => t.fitsHint hint n && t.span n == range).or
        (if hint.any Kind.isEnclosing then t.innermost? range (t.fitsHint hint) else none) := by
  unfold resolve innermost?
  dsimp only
  rw [← List.filter_reverse, List.find?_filter, List.head?_filter]
  simp only [Bool.decide_and, Bool.decide_eq_true]
  cases (t.enclosingNodes range).reverse.find? fun n => t.fitsHint hint n && t.span n == range <;> rfl

/-- What a range denotes is a node. -/
theorem lt_count_of_resolve {range : Span} {hint : Option Kind} {n : Nat}
    (h : t.resolve range hint = some n) : n < t.count := by
  have hinnermost : ∀ {p : Nat → Bool}, t.innermost? range p = some n → n < t.count := fun hfind =>
    lt_count_of_mem_enclosingNodes (List.mem_reverse.1 (List.mem_of_find?_eq_some hfind))
  rw [resolve_eq_innermost?, Option.or_eq_some_iff] at h
  rcases h with h | ⟨-, h⟩
  · exact hinnermost h
  · split at h
    · exact hinnermost h
    · cases h

/-- What a range denotes is of the kind asked for. -/
theorem kind_of_resolve {range : Span} {k : Kind} {n : Nat} (h : t.resolve range (some k) = some n) :
    t.kind n = k := by
  have hfits : t.fitsHint (some k) n = true := by
    rw [resolve_eq_innermost?, Option.or_eq_some_iff] at h
    rcases h with h | ⟨-, h⟩
    · have hfound := List.find?_some h
      exact (Bool.and_eq_true_iff.1 hfound).1
    · split at h
      · exact List.find?_some h
      · cases h
  exact beq_iff_eq.1 hfits

/-! ### Enclosed spans -/

/-- Spans lie within those of the parents, and no byte is covered by two siblings. -/
structure HasEnclosedSpans (t : Tree) : Prop where
  inside : ∀ n, ∀ c ∈ t.children n, (t.span n).contains (t.span c) = true
  apart : ∀ n, (t.children n).Pairwise fun c d => (t.span c).Apart (t.span d)

theorem hasEnclosedSpans_iff : t.HasEnclosedSpans ↔ ∀ n < t.count,
    (∀ c ∈ t.children n, (t.span n).contains (t.span c) = true) ∧
      (t.children n).Pairwise fun c d => (t.span c).Apart (t.span d) := by
  refine ⟨fun h n _ => ⟨h.inside n, h.apart n⟩, fun h => ⟨fun n c hc => ?_, fun n => ?_⟩⟩
  · have hp := mem_children.1 hc
    exact (h n (Nat.lt_trans (lt_of_parent hp) (lt_count_of_parent hp))).1 c hc
  · by_cases hn : n < t.count
    · exact (h n hn).2
    · rw [children_of_count_le (Nat.le_of_not_lt hn)]
      exact List.Pairwise.nil

instance (t : Tree) : Decidable t.HasEnclosedSpans :=
  decidable_of_iff _ hasEnclosedSpans_iff.symm

namespace HasEnclosedSpans

variable {n m : Nat} {range : Span}

theorem contains_of_mem_descendants (h : t.HasEnclosedSpans) (hm : m ∈ t.descendants n) :
    (t.span n).contains (t.span m) = true := by
  induction n using children_induction (t := t) with
  | step n ih =>
    rcases mem_descendants_iff.1 hm with rfl | ⟨c, hc, hmc⟩
    · exact Span.contains_refl _
    · exact Span.contains_trans (h.inside n c hc) (ih c hc hmc)

/-- A range that covers something is inside no more than one of several siblings. -/
theorem eq_of_contains {c d : Nat} (h : t.HasEnclosedSpans) (hc : c ∈ t.children n)
    (hd : d ∈ t.children n) (hrange : range.start < range.stop)
    (hcr : (t.span c).contains range = true) (hdr : (t.span d).contains range = true) : c = d := by
  obtain ⟨i, hi, rfl⟩ := List.mem_iff_getElem.1 hc
  obtain ⟨j, hj, rfl⟩ := List.mem_iff_getElem.1 hd
  have hpair := List.pairwise_iff_getElem.1 (h.apart n)
  rcases Nat.lt_trichotomy i j with hij | rfl | hji
  · exact absurd hdr ((hpair i j hi hj hij).not_contains hrange hcr)
  · rfl
  · exact absurd hcr ((hpair j i hj hi hji).not_contains hrange hdr)

/-- The way down to a range leads to every node around the range: at each node above it the first child
that contains the range is the one that has the node below it. -/
theorem mem_trail (h : t.HasEnclosedSpans) (hrange : range.start < range.stop)
    (hm : m ∈ t.descendants n) (hmr : (t.span m).contains range = true) :
    m ∈ t.trail range (t.subtree n) := by
  induction n using children_induction (t := t) with
  | step n ih =>
    rw [trail_subtree]
    rcases mem_descendants_iff.1 hm with rfl | ⟨c, hc, hmc⟩
    · exact List.mem_cons_self
    · have hcr := Span.contains_trans (h.contains_of_mem_descendants hmc) hmr
      have hfind : ((t.children n).find? fun d => (t.span d).contains range) = some c := by
        refine find?_eq_some_of_unique hc hcr fun d hd hdr => ?_
        exact h.eq_of_contains hd hc hrange hdr hcr
      rw [hfind]
      exact List.mem_cons_of_mem _ (ih c hc hmc)

/-- The nodes on the way down to a range are all the nodes around it, wherever they are in the tree. -/
theorem mem_enclosingNodes (h : t.HasEnclosedSpans) (hrange : range.start < range.stop) :
    m ∈ t.enclosingNodes range ↔ m < t.count ∧ (t.span m).contains range = true := by
  constructor
  · intro hm
    refine ⟨lt_count_of_mem_enclosingNodes hm, ?_⟩
    unfold enclosingNodes at hm
    split at hm
    · next hroot =>
      exact forall_mem_trail (P := fun k => (t.span k).contains range = true) hroot
        (fun _ _ _ _ hcr => hcr) m hm
    · cases hm
  · rintro ⟨hm, hmr⟩
    have hbelow := mem_descendants_root hm
    have hroot := Span.contains_trans (h.contains_of_mem_descendants hbelow) hmr
    rw [enclosingNodes, if_pos hroot]
    exact h.mem_trail hrange hbelow hmr

/-- A search on the way down finds the deepest node of the whole tree that is searched for, if there is
one. -/
theorem innermost?_spec {p : Nat → Bool} {P : Nat → Prop} (h : t.HasEnclosedSpans)
    (hrange : range.start < range.stop)
    (hP : ∀ m, (t.span m).contains range = true ∧ p m = true ↔ P m) :
    (∃ n, t.innermost? range p = some n ∧ t.IsDeepest P n) ∨
      t.innermost? range p = none ∧ ¬ ∃ m < t.count, P m := by
  have hmem : ∀ m, m ∈ t.enclosingNodes range ∧ p m = true ↔ m < t.count ∧ P m := by
    intro m
    rw [h.mem_enclosingNodes hrange, and_assoc, hP]
  cases hfind : t.innermost? range p with
  | none =>
    refine .inr ⟨rfl, ?_⟩
    rintro ⟨m, hm⟩
    obtain ⟨hon, hpm⟩ := (hmem m).2 hm
    exact List.find?_eq_none.1 hfind m (List.mem_reverse.2 hon) hpm
  | some n =>
    obtain ⟨hon, hpn, hlast⟩ := find?_reverse_eq_some (t.pairwise_enclosingNodes range) hfind
    obtain ⟨hn, hPn⟩ := (hmem n).1 ⟨hon, hpn⟩
    have hother : ∀ m < t.count, P m → m = n ∨ n ∈ t.strictDescendants m := by
      intro m hm hPm
      obtain ⟨hon, hpm⟩ := (hmem m).2 ⟨hm, hPm⟩
      exact hlast m hon hpm
    refine .inl ⟨n, rfl, hn, hPn, fun m hm hPm => ?_, fun m hm hPm hne => ?_⟩
    · rcases hother m hm hPm with rfl | hbelow
      · exact self_mem_descendants t m
      · exact mem_descendants_of_strict hbelow
    · rcases hother m hm hPm with heq | hbelow
      · exact absurd heq hne
      · exact depth_lt_of_mem_strictDescendants hbelow

end HasEnclosedSpans

/-! ### Exactness -/

theorem fitsHint_iff {hint : Option Kind} {n : Nat} :
    t.fitsHint hint n = true ↔ ∀ k ∈ hint, t.kind n = k := by
  cases hint <;> simp [fitsHint]

theorem any_isEnclosing_iff {hint : Option Kind} :
    hint.any Kind.isEnclosing = true ↔ hint = some Kind.variableDeclarationFragment := by
  cases hint <;> simp [Kind.isEnclosing, Kind.enclosing]

/-- A node has the given span, and the kind asked for if one is. -/
def HasSpan (t : Tree) (range : Span) (hint : Option Kind) (n : Nat) : Prop :=
  t.span n = range ∧ ∀ k ∈ hint, t.kind n = k

/-- A node is a declarator around the range. -/
def IsDeclaratorAround (t : Tree) (range : Span) (n : Nat) : Prop :=
  (t.span n).contains range = true ∧ t.kind n = Kind.variableDeclarationFragment

instance (t : Tree) (range : Span) (hint : Option Kind) (n : Nat) : Decidable (t.HasSpan range hint n) :=
  inferInstanceAs (Decidable (_ ∧ _))

instance (t : Tree) (range : Span) (n : Nat) : Decidable (t.IsDeclaratorAround range n) :=
  inferInstanceAs (Decidable (_ ∧ _))

theorem contains_and_fits_iff {range : Span} (hint : Option Kind) (n : Nat) :
    (t.span n).contains range = true ∧ (t.fitsHint hint n && t.span n == range) = true ↔
      t.HasSpan range hint n := by
  rw [HasSpan, Bool.and_eq_true, fitsHint_iff, beq_iff_eq]
  constructor
  · rintro ⟨-, hfits, hspan⟩
    exact ⟨hspan, hfits⟩
  · rintro ⟨hspan, hfits⟩
    exact ⟨hspan ▸ Span.contains_refl _, hfits, hspan⟩

theorem contains_and_fits_declarator_iff {range : Span} (n : Nat) :
    (t.span n).contains range = true ∧
        t.fitsHint (some Kind.variableDeclarationFragment) n = true ↔
      t.IsDeclaratorAround range n := by
  rw [IsDeclaratorAround, fitsHint_iff]
  simp

/-- In a tree with enclosed spans a range that covers something denotes the deepest node that has this span,
and the kind asked for, wherever it stands. If there is none and a declarator is asked for, the range denotes
the deepest declarator around it, and otherwise nothing. -/
theorem resolve_deepest (h : t.HasEnclosedSpans) (range : Span) (hrange : range.start < range.stop)
    (hint : Option Kind) :
    ((∃ m < t.count, t.HasSpan range hint m) →
      ∃ n, t.resolve range hint = some n ∧ t.IsDeepest (t.HasSpan range hint) n) ∧
    ((¬ ∃ m < t.count, t.HasSpan range hint m) →
      (hint = some Kind.variableDeclarationFragment → (∃ m < t.count, t.IsDeclaratorAround range m) →
        ∃ n, t.resolve range hint = some n ∧ t.IsDeepest (t.IsDeclaratorAround range) n) ∧
      ((hint = some Kind.variableDeclarationFragment → ¬ ∃ m < t.count, t.IsDeclaratorAround range m) →
        t.resolve range hint = none)) ∧
    (∀ n, t.resolve range hint = some n → n < t.count ∧ (∀ k ∈ hint, t.kind n = k) ∧
      (t.span n = range ∨
        hint = some Kind.variableDeclarationFragment ∧ (t.span n).contains range = true)) := by
  rw [resolve_eq_innermost?]
  rcases h.innermost?_spec hrange (contains_and_fits_iff hint) with
    ⟨n, hfind, hn⟩ | ⟨hfind, hnone⟩
  · rw [hfind, Option.some_or]
    refine ⟨fun _ => ⟨n, rfl, hn⟩, fun hnone => absurd ⟨n, hn.lt_count, hn.holds⟩ hnone, fun k hk => ?_⟩
    obtain rfl := Option.some.inj hk
    exact ⟨hn.lt_count, hn.holds.2, .inl hn.holds.1⟩
  rw [hfind, Option.none_or]
  refine ⟨fun hsome => absurd hsome hnone, ?_⟩
  by_cases hhint : hint = some Kind.variableDeclarationFragment
  · subst hhint
    rw [if_pos (any_isEnclosing_iff.2 rfl)]
    rcases h.innermost?_spec hrange contains_and_fits_declarator_iff with
      ⟨n, hfind, hn⟩ | ⟨hfind, hnone⟩
    · rw [hfind]
      refine ⟨fun _ => ⟨fun _ _ => ⟨n, rfl, hn⟩, fun hno => ?_⟩, fun k hk => ?_⟩
      · exact absurd ⟨n, hn.lt_count, hn.holds⟩ (hno rfl)
      · obtain rfl := Option.some.inj hk
        refine ⟨hn.lt_count, fun l hl => ?_, .inr ⟨rfl, hn.holds.1⟩⟩
        obtain rfl := Option.some.inj hl
        exact hn.holds.2
    · rw [hfind]
      exact ⟨fun _ => ⟨fun _ hsome => absurd hsome hnone, fun _ => rfl⟩, fun k hk => nomatch hk⟩
  · rw [if_neg fun hany => hhint (any_isEnclosing_iff.1 hany)]
    exact ⟨fun _ => ⟨fun heq => absurd heq hhint, fun _ => rfl⟩, fun k hk => nomatch hk⟩

/-- A file with one declaration that fills it, whose declarators touch each other and the type. -/
def touchingFields : Tree :=
  ((((((single ⟨Kind.compilationUnit, none⟩ ⟨0, 20⟩).addChild 0 ⟨Kind.fieldDeclaration, none⟩
    ⟨0, 20⟩).addChild 1 ⟨Kind.primitiveType, some "int"⟩ ⟨0, 4⟩).addChild 1
    ⟨Kind.variableDeclarationFragment, none⟩ ⟨4, 10⟩).addChild 3 ⟨Kind.simpleName, some "count"⟩
    ⟨4, 9⟩).addChild 1 ⟨Kind.variableDeclarationFragment, none⟩ ⟨10, 20⟩).addChild 5
    ⟨Kind.simpleName, some "limit"⟩ ⟨10, 15⟩

/-- The span of the file denotes the declaration inside, the span of a name the declarator around it, and a
range that no node has denotes nothing. -/
theorem touchingFields_resolved :
    touchingFields.HasEnclosedSpans ∧
    (touchingFields.resolve ⟨0, 20⟩ none = some 1 ∧
      touchingFields.IsDeepest (touchingFields.HasSpan ⟨0, 20⟩ none) 1) ∧
    (touchingFields.resolve ⟨4, 9⟩ (some Kind.variableDeclarationFragment) = some 3 ∧
      touchingFields.IsDeepest (touchingFields.IsDeclaratorAround ⟨4, 9⟩) 3) ∧
    touchingFields.resolve ⟨0, 9⟩ none = none := by
  have hspans : touchingFields.HasEnclosedSpans := by decide +kernel
  have hfile : touchingFields.resolve ⟨0, 20⟩ none = some 1 := by decide +kernel
  have hdeclarator : touchingFields.resolve ⟨4, 9⟩ (some Kind.variableDeclarationFragment) = some 3 := by
    decide +kernel
  refine ⟨hspans, ⟨hfile, ?_⟩, ⟨hdeclarator, ?_⟩, ?_⟩
  · obtain ⟨n, hn, hdeepest⟩ := (resolve_deepest hspans ⟨0, 20⟩ (by decide) none).1
      ⟨0, by decide +kernel, by decide +kernel⟩
    rwa [Option.some.inj (hfile.symm.trans hn)]
  · obtain ⟨n, hn, hdeepest⟩ :=
      ((resolve_deepest hspans ⟨4, 9⟩ (by decide) (some Kind.variableDeclarationFragment)).2.1
        (by decide +kernel)).1 rfl ⟨3, by decide +kernel, by decide +kernel⟩
    rwa [Option.some.inj (hdeclarator.symm.trans hn)]
  · exact ((resolve_deepest hspans ⟨0, 9⟩ (by decide) none).2.1 (by decide +kernel)).2 nofun

/-! ### Nested spans -/

/-- Spans cover something, lie strictly inside those of the parents, and those of siblings follow one
another with a gap between them. -/
structure HasNestedSpans (t : Tree) : Prop where
  nonempty : ∀ n < t.count, (t.span n).start < (t.span n).stop
  inside : ∀ n, ∀ c ∈ t.children n,
    (t.span n).start < (t.span c).start ∧ (t.span c).stop < (t.span n).stop
  apart : ∀ n, (t.children n).Pairwise fun c d => (t.span c).stop < (t.span d).start

namespace HasNestedSpans

variable {n m : Nat}

theorem enclosed (h : t.HasNestedSpans) : t.HasEnclosedSpans where
  inside n c hc := by
    have hin := h.inside n c hc
    exact Span.contains_iff.2 ⟨Nat.le_of_lt hin.1, Nat.le_of_lt hin.2⟩
  apart n := (h.apart n).imp fun hgap offset hboth => by
    have hleft := hboth.1.2
    have hright := hboth.2.1
    omega

/-- No two nodes have the same span. -/
theorem span_injective (h : t.HasNestedSpans) (hm : m < t.count) (hn : n < t.count)
    (heq : t.span m = t.span n) : m = n := by
  -- a node has not the span of anything below it
  have hbelow : ∀ {a c k : Nat}, c ∈ t.children a → k ∈ t.descendants c → t.span a ≠ t.span k := by
    intro a c k hc hk heq
    have hin := h.inside a c hc
    have hwithin := Span.contains_iff.1 (h.enclosed.contains_of_mem_descendants hk)
    rw [← heq] at hwithin
    omega
  have hall : ∀ a, m ∈ t.descendants a → n ∈ t.descendants a → m = n := by
    intro a hma hna
    induction a using children_induction (t := t) with
    | step a ih =>
      rcases mem_descendants_iff.1 hma with rfl | ⟨c, hc, hmc⟩
      · rcases mem_descendants_iff.1 hna with rfl | ⟨d, hd, hnd⟩
        · rfl
        · exact absurd heq (hbelow hd hnd)
      · rcases mem_descendants_iff.1 hna with rfl | ⟨d, hd, hnd⟩
        · exact absurd heq.symm (hbelow hc hmc)
        · have hcm := h.enclosed.contains_of_mem_descendants hmc
          have hdm : (t.span d).contains (t.span m) = true :=
            heq ▸ h.enclosed.contains_of_mem_descendants hnd
          obtain rfl : c = d := h.enclosed.eq_of_contains hc hd (h.nonempty m hm) hcm hdm
          exact ih c hc hmc hnd
  exact hall root (mem_descendants_root hm) (mem_descendants_root hn)

/-- A node is found by its span, with any hint that it fits. -/
theorem resolve_span {hint : Option Kind} (h : t.HasNestedSpans) (hn : n < t.count)
    (hhint : t.fitsHint hint n = true) : t.resolve (t.span n) hint = some n := by
  have hspan : t.HasSpan (t.span n) hint n := ⟨rfl, fitsHint_iff.1 hhint⟩
  rcases h.enclosed.innermost?_spec (h.nonempty n hn) (contains_and_fits_iff hint) with
    ⟨k, hfind, hk⟩ | ⟨-, hnone⟩
  · rw [resolve_eq_innermost?, hfind, Option.some_or, h.span_injective hk.lt_count hn hk.holds.1]
  · exact absurd ⟨n, hn, hspan⟩ hnone

end HasNestedSpans

end Tree

end Counterpart
