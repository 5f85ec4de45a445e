import Counterpart.Proofs.Tree.Positions
import Mathlib.Data.List.Find
import Mathlib.Data.Set.Function

/-!
# Subtrees that differ in their numbers

`Carries φ t a t' a'` says that `φ` renames the nodes of the subtree of `a` to those of the subtree of `a'`,
which may belong to another tree: a bijection that keeps children in their order, kinds and labels. Numbers
and everything outside the two subtrees may differ. What is asked of a node inside is then the same on both
sides: what lies below it (`descendants_map`), its parent unless it is the root (`parent_map`), its position
and what it lies within.
-/

namespace Counterpart

namespace Rose

variable {α β γ δ : Type}

theorem map_zip (f : α → γ) (g : β → δ) (r : Rose α) (s : Rose β) :
    (r.map f).zip (s.map g) = (r.zip s).map (Prod.map f g) := by
  induction r using Rose.ind generalizing s with
  | node a cs ih =>
    obtain ⟨b, ds⟩ := s
    rw [map_node, map_node, zip_node, zip_node, map_node, List.zipWith_map, List.map_zipWith,
      ← List.map_uncurry_zip_eq_zipWith, ← List.map_uncurry_zip_eq_zipWith]
    refine congrArg (node _) (List.map_congr_left fun e he => ?_)
    exact ih e.1 (List.of_mem_zip he).1 e.2

theorem preOrder_map (f : α → β) (r : Rose α) : (r.map f).preOrder = r.preOrder.map f := by
  induction r using Rose.ind with
  | node a cs ih =>
    have hchildren : (cs.map (map f)).map preOrder = (cs.map preOrder).map (List.map f) := by
      rw [List.map_map, List.map_map]
      exact List.map_congr_left ih
    rw [map_node, preOrder_node, preOrder_node, hchildren, List.map_cons, List.map_flatten]

end Rose

/-- Searching renamed values is renaming what the search finds. -/
theorem find?_map_eq {α β : Type} {f : α → β} {p : β → Bool} {q : α → Bool} {xs : List α}
    (h : ∀ x ∈ xs, p (f x) = q x) : (xs.map f).find? p = (xs.find? q).map f := by
  rw [List.find?_map]
  exact congrArg (Option.map f) (List.find?_congr h)

/-- Choosing among renamed values is renaming those that are chosen. -/
theorem filter_map_eq {α β : Type} {f : α → β} {p : β → Bool} {q : α → Bool} {xs : List α}
    (h : ∀ x ∈ xs, p (f x) = q x) : (xs.map f).filter p = (xs.filter q).map f := by
  rw [List.filter_map]
  exact congrArg (List.map f) (List.filter_congr h)

/-- Going over renamed values is renaming what going over the values gives, if every round does so. -/
theorem foldl_map_eq {α β γ δ : Type} {f : α → β} {g : γ → δ} {p : δ → β → δ} {q : γ → α → γ}
    {xs : List α} (h : ∀ s, ∀ x ∈ xs, p (g s) (f x) = g (q s x)) (s : γ) :
    (xs.map f).foldl p (g s) = g (xs.foldl q s) := by
  induction xs generalizing s with
  | nil => rfl
  | cons x xs ih =>
    rw [List.map_cons, List.foldl_cons, List.foldl_cons, h s x List.mem_cons_self]
    exact ih (fun s y hy => h s y (List.mem_cons_of_mem x hy)) (q s x)

namespace Tree

/-- Renaming the nodes at and below `a` by `φ` gives the subtree of `a'`. -/
structure Carries (φ : Nat → Nat) (t : Tree) (a : Nat) (t' : Tree) (a' : Nat) : Prop where
  bijOn : Set.BijOn φ {n | n ∈ t.descendants a} {n | n ∈ t'.descendants a'}
  children_map : ∀ n ∈ t.descendants a, t'.children (φ n) = (t.children n).map φ
  kind_map : ∀ n ∈ t.descendants a, t'.kind (φ n) = t.kind n
  label_map : ∀ n ∈ t.descendants a, t'.label (φ n) = t.label n

variable {φ : Nat → Nat} {t t' : Tree} {a a' n m p : Nat}

theorem subtree_map (h : ∀ n ∈ t.descendants a, t'.children (φ n) = (t.children n).map φ)
    (hn : n ∈ t.descendants a) : t'.subtree (φ n) = (t.subtree n).map φ := by
  induction n using children_induction (t := t) with
  | step n ih =>
    rw [subtree_eq, subtree_eq t, Rose.map_node, h n hn, List.map_map, List.map_map]
    refine congrArg (Rose.node (φ n)) (List.map_congr_left fun c hc => ?_)
    exact ih c hc (mem_descendants_trans hn (mem_descendants_of_child hc))

namespace Carries

theorem mem (h : Carries φ t a t' a') (hn : n ∈ t.descendants a) : φ n ∈ t'.descendants a' :=
  h.bijOn.mapsTo hn

theorem inj (h : Carries φ t a t' a') (hn : n ∈ t.descendants a) (hm : m ∈ t.descendants a) :
    φ n = φ m ↔ n = m :=
  h.bijOn.injOn.eq_iff hn hm

/-- The root goes to the root: every other node goes below the image of its parent. -/
theorem root_eq (h : Carries φ t a t' a') : φ a = a' := by
  obtain ⟨n, hn, hna⟩ := h.bijOn.surjOn (self_mem_descendants t' a')
  rcases mem_descendants_iff_parent.1 hn with rfl | ⟨p, hp, hpa⟩
  · exact hna
  · have hchild : a' ∈ t'.children (φ p) := by
      rw [h.children_map p hpa, ← hna]
      exact List.mem_map_of_mem (mem_children.2 hp)
    have habove := le_of_mem_descendants (h.mem hpa)
    have hbelow := lt_of_parent (mem_children.1 hchild)
    omega

theorem descendants_map (h : Carries φ t a t' a') (hn : n ∈ t.descendants a) :
    t'.descendants (φ n) = (t.descendants n).map φ := by
  rw [descendants, descendants, subtree_map h.children_map hn, Rose.preOrder_map]

theorem descendants_root (h : Carries φ t a t' a') : t'.descendants a' = (t.descendants a).map φ := by
  rw [← h.descendants_map (self_mem_descendants t a), h.root_eq]

theorem strictDescendants_map (h : Carries φ t a t' a') (hn : n ∈ t.descendants a) :
    t'.strictDescendants (φ n) = (t.strictDescendants n).map φ := by
  rw [strictDescendants, strictDescendants, h.descendants_map hn, List.map_tail]

theorem isLeaf_map (h : Carries φ t a t' a') (hn : n ∈ t.descendants a) :
    t'.isLeaf (φ n) = t.isLeaf n := by
  rw [isLeaf, isLeaf, h.children_map n hn, List.isEmpty_map]

/-- Renaming takes nothing into a part of the subtree from outside that part. -/
theorem mem_map_iff (h : Carries φ t a t' a') {ns : List Nat} (hns : ∀ k ∈ ns, k ∈ t.descendants a)
    (hn : n ∈ t.descendants a) : φ n ∈ ns.map φ ↔ n ∈ ns := by
  rw [List.mem_map]
  constructor
  · rintro ⟨k, hk, heq⟩
    exact (h.inj (hns k hk) hn).1 heq ▸ hk
  · exact fun hmem => ⟨n, hmem, rfl⟩

theorem isWithin_map (h : Carries φ t a t' a') (hn : n ∈ t.descendants a)
    (hm : m ∈ t.descendants a) : t'.isWithin (φ n) (φ m) = t.isWithin n m := by
  rw [Bool.eq_iff_iff, isWithin_iff, isWithin_iff, h.descendants_map hm]
  exact h.mem_map_iff (fun k hk => mem_descendants_trans hm hk) hn

/-- Every node but the root has its parent in the subtree. -/
theorem exists_parent (hn : n ∈ t.descendants a) (hne : n ≠ a) :
    ∃ p, t.parent n = some p ∧ p ∈ t.descendants a :=
  (mem_descendants_iff_parent.1 hn).resolve_left hne

theorem child_map (h : Carries φ t a t' a') (hp : p ∈ t.descendants a) (hn : n ∈ t.children p) :
    φ n ∈ t'.children (φ p) := by
  rw [h.children_map p hp]
  exact List.mem_map_of_mem hn

theorem parent_map (h : Carries φ t a t' a') (hn : n ∈ t.descendants a) (hne : n ≠ a) :
    t'.parent (φ n) = (t.parent n).map φ := by
  obtain ⟨p, hp, hpa⟩ := exists_parent hn hne
  rw [hp, Option.map_some]
  exact mem_children.1 (h.child_map hpa (mem_children.2 hp))

theorem position_map (h : Carries φ t a t' a') (hn : n ∈ t.descendants a) (hne : n ≠ a) :
    t'.position (φ n) = t.position n := by
  obtain ⟨p, hp, hpa⟩ := exists_parent hn hne
  have hplace : (n, φ n) ∈ (t.children p).zip (t'.children (φ p)) := by
    obtain ⟨i, hi, rfl⟩ := List.mem_iff_getElem.1 (mem_children.2 hp)
    refine List.mem_iff_getElem.2 ⟨i, ?_, ?_⟩
    · simp [h.children_map p hpa, hi]
    · simp [h.children_map p hpa]
  exact (position_eq_of_mem_zip hplace).symm

end Carries

/-- To carry a subtree over it is enough to take the root to the root and to keep all lists of children. -/
theorem carries_of_children (hroot : φ a = a')
    (hchildren : ∀ n ∈ t.descendants a, t'.children (φ n) = (t.children n).map φ)
    (hkind : ∀ n ∈ t.descendants a, t'.kind (φ n) = t.kind n)
    (hlabel : ∀ n ∈ t.descendants a, t'.label (φ n) = t.label n) : Carries φ t a t' a' := by
  have hmap : t'.descendants a' = (t.descendants a).map φ := by
    rw [← hroot, descendants, descendants, subtree_map hchildren (self_mem_descendants t a),
      Rose.preOrder_map]
  have hnodup := nodup_descendants t' a'
  rw [hmap] at hnodup
  refine ⟨⟨?_, ?_, ?_⟩, hchildren, hkind, hlabel⟩
  · intro n hn
    show φ n ∈ t'.descendants a'
    rw [hmap]
    exact List.mem_map_of_mem hn
  · exact List.inj_on_of_nodup_map hnodup
  · intro k hk
    have hk' : k ∈ (t.descendants a).map φ := hmap ▸ hk
    simpa using hk'

end Tree

end Counterpart
