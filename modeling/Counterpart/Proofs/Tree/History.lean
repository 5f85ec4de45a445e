import Counterpart.Proofs.Tree.Positions
import Mathlib.Order.Bounds.Basic

/-!
# Trees with a history

A tree is made by edits: nodes are added under nodes that exist, and the tree is finished, in any order.
What finishing stores does not depend on what was stored before, so of the earlier edits only the additions
matter (`finish_foldl_edit`). In a finished tree the size of a node is the number of the nodes within it
(`IsFinished.size_eq`) and its height the length of a longest way down (`IsFinished.isGreatest_height`).
-/

namespace Counterpart

theorem foldr_add_length {α : Type} (ls : List (List α)) :
    (ls.map List.length).foldr (· + ·) 1 = ls.flatten.length + 1 := by
  induction ls with
  | nil => rfl
  | cons l ls ih =>
    rw [List.map_cons, List.foldr_cons, ih, List.flatten_cons, List.length_append, Nat.add_assoc]

namespace Tree

variable {t u : Tree}

/-- A change to a tree under construction. -/
inductive Edit where
  | addChild (parent : Nat) (atom : Atom) (span : Span)
  | finish
  deriving DecidableEq

/-- Whether an edit adds a node. -/
def Edit.isAddition : Edit → Bool
  | addChild .. => true
  | finish => false

def edit (t : Tree) : Edit → Tree
  | .addChild p a s => t.addChild p a s
  | .finish => t.finish

/-! ### Up to stored values -/

/-- The trees differ in stored values only. -/
structure Agree (t u : Tree) : Prop where
  count_eq : t.count = u.count
  childIndex_eq : t.childIndex = u.childIndex
  atom_eq : ∀ n, t.atom n = u.atom n
  span_eq : ∀ n, t.span n = u.span n
  parent_eq : ∀ n, t.parent n = u.parent n

theorem Agree.refl (t : Tree) : Agree t t :=
  ⟨rfl, rfl, fun _ => rfl, fun _ => rfl, fun _ => rfl⟩

theorem childIndex_finish (t : Tree) : t.finish.childIndex = t.childIndex :=
  finish_keeps childIndex (fun _ _ _ => rfl) t

theorem Agree.finish_left (h : Agree t u) : Agree t.finish u where
  count_eq := (count_finish t).trans h.count_eq
  childIndex_eq := (childIndex_finish t).trans h.childIndex_eq
  atom_eq n := (atom_finish t n).trans (h.atom_eq n)
  span_eq n := (span_finish t n).trans (h.span_eq n)
  parent_eq n := (parent_finish t n).trans (h.parent_eq n)

theorem childIndex_addChild {p : Nat} (hp : p < t.count) (a : Atom) (s : Span) :
    (t.addChild p a s).childIndex = t.childIndex.set p (t.childIndex.get p ++ [t.count]) := by
  rw [addChild, dif_pos hp]
  rfl

theorem Agree.addChild (h : Agree t u) (p : Nat) (a : Atom) (s : Span) :
    Agree (t.addChild p a s) (u.addChild p a s) := by
  by_cases hp : p < t.count
  · have hp' : p < u.count := h.count_eq ▸ hp
    -- old nodes agree by assumption, the new one is the same on both sides
    have hnode : ∀ {α : Type} (f : Node → α), (∀ n, f (t.node n) = f (u.node n)) →
        ∀ n, f ((t.addChild p a s).node n) = f ((u.addChild p a s).node n) := by
      intro α f hf n
      rw [node_addChild hp, node_addChild hp', h.count_eq]
      split
      · rfl
      · exact hf n
    constructor
    · rw [count_addChild hp, count_addChild hp', h.count_eq]
    · rw [childIndex_addChild hp, childIndex_addChild hp', h.childIndex_eq, h.count_eq]
    · exact hnode Node.atom h.atom_eq
    · exact hnode Node.span h.span_eq
    · exact hnode Node.parent h.parent_eq
  · have hp' : ¬ p < u.count := h.count_eq ▸ hp
    rw [Tree.addChild, Tree.addChild, dif_neg hp, dif_neg hp']
    exact h

theorem Agree.term_eq (h : Agree t u) (n : Nat) : t.term n = u.term n := by
  induction n using children_induction (t := t) with
  | step n ih =>
    have hchildren : t.children n = u.children n := by rw [children, children, h.childIndex_eq]
    rw [Tree.term_eq, Tree.term_eq u, h.atom_eq, ← hchildren]
    exact congrArg _ (List.map_congr_left ih)

/-- A tree is known by its nodes and the index of children. -/
theorem eq_of_node_eq (hcount : t.count = u.count) (hindex : t.childIndex = u.childIndex)
    (hnode : ∀ n < t.count, t.node n = u.node n) : t = u := by
  have hnodes : t.nodes = u.nodes := by
    apply Array.ext_getElem?
    intro n
    by_cases hn : n < t.count
    · rw [nodes_getElem? hn, nodes_getElem? (hcount ▸ hn), hnode n hn]
    · have hn' : ¬ n < u.count := hcount ▸ hn
      rw [Array.getElem?_eq_none (Nat.le_of_not_lt hn), Array.getElem?_eq_none (Nat.le_of_not_lt hn')]
  obtain ⟨nodes, index, _, _, _, _⟩ := t
  obtain ⟨nodes', index', _, _, _, _⟩ := u
  obtain rfl : nodes = nodes' := hnodes
  obtain rfl : index = index' := hindex
  rfl

/-- Trees that differ in stored values only are finished to the same tree. -/
theorem Agree.finish_eq (h : Agree t u) : t.finish = u.finish := by
  apply eq_of_node_eq
  · rw [count_finish, count_finish, h.count_eq]
  · rw [childIndex_finish, childIndex_finish, h.childIndex_eq]
  · intro n hn
    rw [count_finish] at hn
    have hatom : t.finish.atom n = u.finish.atom n := by rw [atom_finish, atom_finish, h.atom_eq]
    have hspan : t.finish.span n = u.finish.span n := by rw [span_finish, span_finish, h.span_eq]
    have hparent : t.finish.parent n = u.finish.parent n := by
      rw [parent_finish, parent_finish, h.parent_eq]
    have hmeasures : t.finish.measures n = u.finish.measures n := by
      rw [measures_finish t hn, measures_finish u (h.count_eq ▸ hn), h.term_eq]
    exact Node.mk.injEq .. ▸ ⟨hatom, hspan, hparent, hmeasures⟩

/-- Edits that add the same nodes keep trees in agreement, wherever they finish them. -/
theorem Agree.foldl_edit (h : Agree t u) (es : List Edit) :
    Agree (es.foldl edit t) ((es.filter Edit.isAddition).foldl edit u) := by
  induction es generalizing t u with
  | nil => exact h
  | cons e es ih =>
    cases e with
    | addChild p a s => exact ih (h.addChild p a s)
    | finish => exact ih h.finish_left

/-- What is stored in the end does not depend on where the tree was finished before. -/
theorem finish_foldl_edit {es es' : List Edit}
    (h : es.filter Edit.isAddition = es'.filter Edit.isAddition) (t : Tree) :
    (es.foldl edit t).finish = (es'.foldl edit t).finish := by
  rw [((Agree.refl t).foldl_edit es).finish_eq, ((Agree.refl t).foldl_edit es').finish_eq, h]

/-! ### Size and height -/

/-- In a finished tree the stored values of a node are those that its children give. -/
theorem IsFinished.measures_eq (h : t.IsFinished) {n : Nat} (hn : n < t.count) :
    t.measures n = .ofChildren (t.atom n) ((t.children n).map t.measures) := by
  obtain ⟨s, rfl⟩ := h
  rw [count_finish] at hn
  have hchildren : (s.children n).map s.finish.measures =
      (s.children n).map fun c => Measures.ofTerm (s.term c) :=
    List.map_congr_left fun c hc => measures_finish s (lt_count_of_parent (mem_children.1 hc))
  rw [measures_finish s hn, term_eq, Measures.ofTerm_node, List.map_map, atom_finish, children_finish,
    hchildren]
  rfl

/-- The size of a node is the length of the walk over its subtree. -/
theorem IsFinished.size_eq_length (h : t.IsFinished) (n : Nat) : t.size n = (t.descendants n).length := by
  induction n using children_induction (t := t) with
  | step n ih =>
    rcases Nat.lt_or_ge n t.count with hn | hn
    · have hchildren : (t.children n).map t.size =
          ((t.children n).map t.descendants).map List.length := by
        rw [List.map_map]
        exact List.map_congr_left ih
      have hnode : t.size n = ((t.children n).map t.size).foldr (· + ·) 1 := by
        rw [size, h.measures_eq hn]
        exact congrArg (List.foldr _ 1) List.map_map
      rw [hnode, hchildren, foldr_add_length, descendants_eq, List.length_cons, List.flatMap_def]
    · rw [descendants_eq, children_of_count_le hn, size, measures, node_of_count_le hn]
      rfl

/-- The size of a node is the number of the nodes within it. -/
theorem IsFinished.size_eq (h : t.IsFinished) {n : Nat} (hn : n < t.count) :
    t.size n = ((List.range t.count).filter fun m => t.isWithin m n).length := by
  have hperm : (t.descendants n).Perm ((List.range t.count).filter fun m => t.isWithin m n) := by
    refine (List.perm_ext_iff_of_nodup (nodup_descendants t n) (List.nodup_range.filter _)).2 fun m => ?_
    rw [List.mem_filter, List.mem_range, isWithin_iff,
      and_iff_right_of_imp (lt_count_of_mem_descendants hn)]
  rw [h.size_eq_length n, hperm.length_eq]

/-- The nodes after `n` on a way down. -/
def IsWayDown (t : Tree) (n : Nat) (ns : List Nat) : Prop :=
  List.IsChain (fun p c => t.parent c = some p) (n :: ns)

/-- The height of a node is the number of nodes on a longest way down. -/
theorem IsFinished.isGreatest_height (h : t.IsFinished) {n : Nat} (hn : n < t.count) :
    IsGreatest {k | ∃ ns, t.IsWayDown n ns ∧ k = (n :: ns).length} (t.height n) := by
  induction n using children_induction (t := t) with
  | step n ih =>
    have hnode : t.height n = ((t.children n).map t.height).max?.getD 0 + 1 := by
      have hfold : t.height n = ((t.children n).map t.height).foldl max 0 + 1 := by
        rw [height, h.measures_eq hn]
        exact congrArg (fun ks => List.foldl max 0 ks + 1) List.map_map
      rw [hfold, List.foldl_max, Nat.zero_max]
    constructor
    · -- a highest child goes on with its own way down
      cases hmax : ((t.children n).map t.height).max? with
      | none =>
        refine ⟨[], .singleton n, ?_⟩
        rw [hnode, hmax]
        rfl
      | some k =>
        obtain ⟨c, hc, rfl⟩ := List.mem_map.1 (List.max?_mem hmax)
        have hp := mem_children.1 hc
        obtain ⟨ns, hway, hlen⟩ := (ih c hc (lt_count_of_parent hp)).1
        refine ⟨c :: ns, List.isChain_cons_cons.2 ⟨hp, hway⟩, ?_⟩
        rw [hnode, hmax, Option.getD_some, hlen, List.length_cons (a := n)]
    · rintro k ⟨ns, hway, rfl⟩
      cases ns with
      | nil =>
        rw [hnode]
        exact Nat.le_add_left 1 _
      | cons c ns =>
        obtain ⟨hp, hway⟩ := List.isChain_cons_cons.1 hway
        have hc := mem_children.2 hp
        have hlen : (c :: ns).length ≤ t.height c := (ih c hc (lt_count_of_parent hp)).2 ⟨ns, hway, rfl⟩
        have hle : t.height c ≤ ((t.children n).map t.height).max?.getD 0 :=
          List.le_max?_getD_of_mem (List.mem_map_of_mem hc)
        rw [hnode, List.length_cons]
        omega

end Tree

end Counterpart
