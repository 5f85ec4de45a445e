import Counterpart.Proofs.Tree.History
import Mathlib.Data.List.Induction

/-!
# Finding one's way in a tree

Parents, children, positions and walks are views of one list of nodes that grows at its end, under any node that
is there. `IsGrown t ps` says what the views of single nodes show after nodes were added under `ps`, one after
the other: it is kept by every edit (`IsGrown.addChild`, `IsGrown.finish`). `IsCoherent t` says that the walks
agree with them, in whatever order the nodes were added. The main statement is `isCoherent_foldl_edit`.
-/

namespace Counterpart

theorem sublist_flatMap_of_mem {α : Type} {f : α → List α} {xs : List α} (h : ∀ x ∈ xs, x ∈ f x) :
    xs.Sublist (xs.flatMap f) := by
  induction xs with
  | nil => exact .slnil
  | cons x xs ih =>
    have hx : [x].Sublist (f x) := List.singleton_sublist.2 (h x List.mem_cons_self)
    have hxs := ih fun y hy => h y (List.mem_cons_of_mem x hy)
    rw [List.flatMap_cons]
    exact hx.append hxs

theorem getElem?_append_singleton_eq_some {α : Type} {xs : List α} {x y : α} {i : Nat}
    (h : (xs ++ [x])[i]? = some y) : xs[i]? = some y ∨ i = xs.length ∧ y = x := by
  rcases Nat.lt_trichotomy i xs.length with hi | rfl | hi
  · exact .inl (by rwa [List.getElem?_append_left hi] at h)
  · rw [List.getElem?_concat_length] at h
    exact .inr ⟨rfl, (Option.some.inj h).symm⟩
  · rw [List.getElem?_eq_none (by simp; omega)] at h
    cases h

namespace Tree

variable {t : Tree} {ps : List Nat}

/-! ### Growth -/

/-- The node that an edit adds a child to, if it adds one. -/
def Edit.parent? : Edit → Option Nat
  | addChild p _ _ => some p
  | finish => none

/-- The nodes that edits add children to, in order. -/
def parents (es : List Edit) : List Nat :=
  es.filterMap Edit.parent?

theorem parents_append (es fs : List Edit) : parents (es ++ fs) = parents es ++ parents fs :=
  List.filterMap_append

/-- Every parent is there when it is used: the tree has a root, and one more node with every addition. -/
def UnderExisting (ps : List Nat) : Prop :=
  ∀ e ∈ ps.zipIdx, e.1 ≤ e.2

instance (ps : List Nat) : Decidable (UnderExisting ps) :=
  inferInstanceAs (Decidable (∀ e ∈ ps.zipIdx, e.1 ≤ e.2))

theorem underExisting_append_singleton {p : Nat} :
    UnderExisting (ps ++ [p]) ↔ UnderExisting ps ∧ p ≤ ps.length := by
  rw [UnderExisting, List.zipIdx_append, List.forall_mem_append]
  simp [UnderExisting]

/-- The tree has a root and nodes that were added one by one under `ps`, each as the last of the children that its
parent had by then. -/
structure IsGrown (t : Tree) (ps : List Nat) : Prop where
  count_eq : t.count = ps.length + 1
  length_children : ∀ p, (t.children p).length = ps.count p
  parent_eq : ∀ i p, ps[i]? = some p → t.parent (i + 1) = some p
  position_eq : ∀ i p, ps[i]? = some p → t.position (i + 1) = (ps.take i).count p

theorem isGrown_single (a : Atom) (s : Span) : (single a s).IsGrown [] where
  count_eq := rfl
  length_children p := by
    rw [children_eq]
    rfl
  parent_eq i p h := by cases h
  position_eq i p h := by cases h

theorem parent_addChild {p : Nat} (hp : p < t.count) (a : Atom) (s : Span) (n : Nat) :
    (t.addChild p a s).parent n = if n = t.count then some p else t.parent n := by
  rw [parent, node_addChild hp]
  split <;> rfl

/-- A new node comes after its siblings. -/
theorem position_addChild_new {p : Nat} (hp : p < t.count) (a : Atom) (s : Span) :
    (t.addChild p a s).position t.count = (t.children p).length := by
  have hparent : (t.addChild p a s).parent t.count = some p := by rw [parent_addChild hp, if_pos rfl]
  have hnew : t.count ∉ t.children p := fun h =>
    Nat.lt_irrefl _ (lt_count_of_parent (mem_children.1 h))
  rw [position_eq_idxOf hparent, children_addChild hp, if_pos rfl, List.idxOf_append_of_notMem hnew,
    List.idxOf_cons_self, Nat.add_zero]

/-- The other nodes stay at their positions. -/
theorem position_addChild_old {p n : Nat} (hp : p < t.count) (a : Atom) (s : Span) (hn : n < t.count) :
    (t.addChild p a s).position n = t.position n := by
  have hparent : (t.addChild p a s).parent n = t.parent n := by
    rw [parent_addChild hp, if_neg (Nat.ne_of_lt hn)]
  cases h : t.parent n with
  | none => rw [position, position, hparent, h]
  | some q =>
    rw [position_eq_idxOf (hparent.trans h), position_eq_idxOf h, children_addChild hp,
      List.idxOf_append_of_mem (mem_children.2 h)]

theorem IsGrown.addChild (h : t.IsGrown ps) {p : Nat} (hp : p < t.count) (a : Atom) (s : Span) :
    (t.addChild p a s).IsGrown (ps ++ [p]) where
  count_eq := by rw [count_addChild hp, h.count_eq, List.length_append, List.length_singleton]
  length_children q := by
    have hnew : (if p = q then [t.count] else []).length = [p].count q := by
      rw [List.count_singleton]
      by_cases hpq : p = q <;> simp [hpq]
    rw [children_addChild hp, List.length_append, h.length_children, List.count_append, hnew]
  parent_eq i q hq := by
    have hcount := h.count_eq
    rcases getElem?_append_singleton_eq_some hq with hq | ⟨rfl, rfl⟩
    · have hi := (List.getElem?_eq_some_iff.1 hq).1
      rw [parent_addChild hp, if_neg (by omega), h.parent_eq i q hq]
    · rw [parent_addChild hp, if_pos hcount.symm]
  position_eq i q hq := by
    have hcount := h.count_eq
    rcases getElem?_append_singleton_eq_some hq with hq | ⟨rfl, rfl⟩
    · have hi := (List.getElem?_eq_some_iff.1 hq).1
      rw [position_addChild_old hp a s (by omega), h.position_eq i q hq,
        List.take_append_of_le_length (Nat.le_of_lt hi)]
    · rw [← hcount, position_addChild_new hp, h.length_children, List.take_left]

theorem IsGrown.finish (h : t.IsGrown ps) : t.finish.IsGrown ps where
  count_eq := (count_finish t).trans h.count_eq
  length_children p := by rw [children_finish, h.length_children]
  parent_eq i p hp := by rw [parent_finish, h.parent_eq i p hp]
  position_eq i p hp := by
    rw [position_eq_idxOf ((parent_finish t _).trans (h.parent_eq i p hp)), children_finish,
      ← position_eq_idxOf (h.parent_eq i p hp), h.position_eq i p hp]

/-- Edits show in the views of single nodes. -/
theorem isGrown_foldl_edit (a : Atom) (s : Span) {es : List Edit} (h : UnderExisting (parents es)) :
    (es.foldl edit (single a s)).IsGrown (parents es) := by
  induction es using List.reverseRecOn with
  | nil => exact isGrown_single a s
  | append_singleton es e ih =>
    rw [List.foldl_append]
    rw [parents_append] at h ⊢
    cases e with
    | addChild p b r =>
      -- there are as many nodes below the root as there were additions
      obtain ⟨hes, hp⟩ := underExisting_append_singleton.1 h
      have hcount := (ih hes).count_eq
      exact (ih hes).addChild (by omega) b r
    | finish =>
      have hnone : parents [.finish] = [] := rfl
      rw [hnone, List.append_nil] at h ⊢
      exact (ih h).finish

/-! ### Walks -/

/-- What a walk shows at a node is a block of what it shows at the nodes above. -/
theorem infix_of_mem_descendants (walk : Nat → List Nat) (hwalk : ∀ n, ∀ c ∈ t.children n, walk c <:+: walk n)
    {n m : Nat} (h : m ∈ t.descendants n) : walk m <:+: walk n := by
  induction n using children_induction (t := t) with
  | step n ih =>
    rcases mem_descendants_iff.1 h with rfl | ⟨c, hc, hm⟩
    · exact List.infix_refl _
    · exact (ih c hc hm).trans (hwalk n c hc)

theorem isInfix_descendants {n m : Nat} (h : m ∈ t.descendants n) : t.descendants m <:+: t.descendants n := by
  refine infix_of_mem_descendants t.descendants (fun n c hc => ?_) h
  rw [descendants_eq t n]
  exact (List.infix_flatMap_of_mem hc _).trans (List.suffix_cons _ _).isInfix

theorem isInfix_postOrder {n m : Nat} (h : m ∈ t.descendants n) :
    (t.subtree m).postOrder <:+: (t.subtree n).postOrder := by
  refine infix_of_mem_descendants (fun n => (t.subtree n).postOrder) (fun n c hc => ?_) h
  rw [postOrder_subtree t n]
  exact (List.infix_flatMap_of_mem hc fun c => (t.subtree c).postOrder).trans (List.prefix_append _ _).isInfix

theorem family_sublist_descendants (t : Tree) (n : Nat) : (n :: t.children n).Sublist (t.descendants n) := by
  rw [descendants_eq]
  exact (sublist_flatMap_of_mem fun c _ => self_mem_descendants t c).cons_cons n

theorem family_sublist_postOrder (t : Tree) (n : Nat) :
    (t.children n ++ [n]).Sublist (t.subtree n).postOrder := by
  have hself : ∀ c, c ∈ (t.subtree c).postOrder := fun c => Rose.mem_postOrder.2 (self_mem_descendants t c)
  rw [postOrder_subtree]
  exact (sublist_flatMap_of_mem fun c _ => hself c).append_right [n]

theorem postOrder_perm (t : Tree) : t.postOrder.Perm t.preOrder :=
  Rose.postOrder_perm _

theorem length_preOrder (t : Tree) : t.preOrder.length = t.count := by
  have hperm : t.preOrder.Perm (List.range t.count) := by
    refine (List.perm_ext_iff_of_nodup (nodup_descendants t root) List.nodup_range).2 fun n => ?_
    rw [List.mem_range]
    exact mem_preOrder
  rw [hperm.length_eq, List.length_range]

/-- The walks, and the ways up and down from a node, agree on one ordered tree. -/
structure IsCoherent (t : Tree) : Prop where
  nodup_preOrder : t.preOrder.Nodup
  nodup_postOrder : t.postOrder.Nodup
  mem_preOrder_iff : ∀ n, n ∈ t.preOrder ↔ n < t.count
  mem_postOrder_iff : ∀ n, n ∈ t.postOrder ↔ n < t.count
  length_preOrder : t.preOrder.length = t.count
  /-- A parent comes before its children, and these in their order. -/
  preOrder_family : ∀ n < t.count, (n :: t.children n).Sublist t.preOrder
  /-- A parent comes after its children, and these in their order. -/
  postOrder_family : ∀ n < t.count, (t.children n ++ [n]).Sublist t.postOrder
  /-- A subtree is a block, with its top at the start. -/
  preOrder_block : ∀ n < t.count, t.descendants n <:+: t.preOrder ∧ (t.descendants n).head? = some n
  isWithin_iff : ∀ m n, t.isWithin m n = true ↔ m ∈ t.descendants n
  child?_eq_some_iff : ∀ n i c, t.child? n i = some c ↔ t.parent c = some n ∧ t.position c = i

/-- A tree is coherent in whatever order its nodes were created, as long as parents come before their children. -/
theorem isCoherent (t : Tree) : t.IsCoherent where
  nodup_preOrder := nodup_descendants t root
  nodup_postOrder := (postOrder_perm t).nodup_iff.2 (nodup_descendants t root)
  mem_preOrder_iff _ := mem_preOrder
  mem_postOrder_iff _ := (postOrder_perm t).mem_iff.trans mem_preOrder
  length_preOrder := length_preOrder t
  preOrder_family n hn :=
    (family_sublist_descendants t n).trans (isInfix_descendants (mem_descendants_root hn)).sublist
  postOrder_family n hn :=
    (family_sublist_postOrder t n).trans (isInfix_postOrder (mem_descendants_root hn)).sublist
  preOrder_block n hn := by
    refine ⟨isInfix_descendants (mem_descendants_root hn), ?_⟩
    rw [descendants_eq]
    rfl
  isWithin_iff _ _ := isWithin_iff
  child?_eq_some_iff _ _ _ := child?_eq_some_iff

/-- However a tree was grown from its root, every node has the parent that it was added under and the position
after the children that this parent had by then, and all walks agree with that. -/
theorem isCoherent_foldl_edit (a : Atom) (s : Span) {es : List Edit} (h : UnderExisting (parents es)) :
    (es.foldl edit (single a s)).IsGrown (parents es) ∧ (es.foldl edit (single a s)).IsCoherent :=
  ⟨isGrown_foldl_edit a s h, isCoherent _⟩

/-- A block whose first statement gets its expression only after the second statement is there. -/
def lateExpression : List Edit :=
  [.addChild 0 ⟨Kind.returnStatement, none⟩ ⟨1, 5⟩, .addChild 0 ⟨Kind.expressionStatement, none⟩ ⟨6, 9⟩, .finish,
    .addChild 1 ⟨Kind.simpleName, some "x"⟩ ⟨2, 3⟩]

/-- Its walks are not in the order of creation. -/
theorem lateExpression_coherent :
    let t := lateExpression.foldl edit (single ⟨Kind.block, none⟩ ⟨0, 9⟩)
    t.preOrder = [0, 1, 3, 2] ∧ t.postOrder = [3, 1, 2, 0] ∧ t.position 3 = 0 ∧ t.IsCoherent := by
  have hparents : UnderExisting (parents lateExpression) := by decide +kernel
  obtain ⟨hgrown, hcoherent⟩ := isCoherent_foldl_edit ⟨Kind.block, none⟩ ⟨0, 9⟩ hparents
  exact ⟨by decide +kernel, by decide +kernel, hgrown.position_eq 2 1 rfl, hcoherent⟩

end Tree

end Counterpart
