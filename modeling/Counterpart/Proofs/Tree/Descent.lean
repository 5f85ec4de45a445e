import Counterpart.LinkSet
import Mathlib.Data.List.Perm.Basic

/-!
# Descent

What lies at and below a node, as a relation: `mem_descendants_iff` goes down by one child,
`mem_descendants_trans` composes ways down, and numbers grow on the way (`le_of_mem_descendants`).
`LinkWithin t u p l` says the same of links: both ends of `l` lie at or below those of `p`. Whatever
passes from a pair of nodes to the pairs of their children holds all over an overlay
(`forall_mem_overlay`).
-/

namespace Counterpart

theorem Rose.mem_revPreOrder {α : Type} {a : α} {r : Rose α} :
    a ∈ r.revPreOrder ↔ a ∈ r.preOrder := by
  induction r using Rose.ind with
  | node b cs ih =>
    have hcs : (∃ c ∈ cs, a ∈ c.revPreOrder) ↔ ∃ c ∈ cs, a ∈ c.preOrder :=
      exists_congr fun c => and_congr_right fun hc => ih c hc
    rw [revPreOrder_node, preOrder_node, ← List.map_reverse, ← List.flatMap_def, ← List.flatMap_def]
    simp only [List.mem_cons, List.mem_flatMap, List.mem_reverse]
    exact or_congr_right hcs

theorem Rose.postOrder_perm {α : Type} (r : Rose α) : r.postOrder.Perm r.preOrder := by
  induction r using Rose.ind with
  | node b cs ih =>
    rw [postOrder_node, preOrder_node, ← List.flatMap_def, ← List.flatMap_def]
    exact List.perm_append_comm.trans ((List.Perm.flatMap_left cs ih).cons b)

theorem Rose.mem_postOrder {α : Type} {a : α} {r : Rose α} : a ∈ r.postOrder ↔ a ∈ r.preOrder :=
  (postOrder_perm r).mem_iff

namespace Tree

variable {t u : Tree}

/-- To prove a property of all nodes, prove it of a node whose children all have it. -/
@[elab_as_elim]
theorem children_induction {motive : Nat → Prop} (n : Nat)
    (step : ∀ n, (∀ c ∈ t.children n, motive c) → motive n) : motive n := by
  -- children have larger numbers, and no number reaches `count`
  induction h : t.count - n using Nat.strongRecOn generalizing n with
  | ind k ih =>
    refine step n fun c hc => ?_
    have hp := mem_children.1 hc
    have hlt := lt_of_parent hp
    have hcount := lt_count_of_parent hp
    exact ih (t.count - c) (by omega) c rfl

/-! ### Descendants -/

theorem mem_descendants_iff {n m : Nat} :
    m ∈ t.descendants n ↔ m = n ∨ ∃ c ∈ t.children n, m ∈ t.descendants c := by
  rw [descendants_eq, List.mem_cons, List.mem_flatMap]

theorem mem_strictDescendants_iff {n m : Nat} :
    m ∈ t.strictDescendants n ↔ ∃ c ∈ t.children n, m ∈ t.descendants c := by
  rw [strictDescendants_eq, List.mem_flatMap]

theorem mem_descendants_of_strict {n m : Nat} (h : m ∈ t.strictDescendants n) :
    m ∈ t.descendants n :=
  mem_descendants_iff.2 (Or.inr (mem_strictDescendants_iff.1 h))

theorem mem_descendants_of_child {n c : Nat} (h : c ∈ t.children n) : c ∈ t.descendants n :=
  mem_descendants_iff.2 (Or.inr ⟨c, h, self_mem_descendants t c⟩)

/-- What lies below a node of a subtree lies in the subtree. -/
theorem mem_descendants_trans {n m k : Nat} (h : m ∈ t.descendants n)
    (h' : k ∈ t.descendants m) : k ∈ t.descendants n := by
  induction n using children_induction (t := t) with
  | step n ih =>
    rcases mem_descendants_iff.1 h with rfl | ⟨c, hc, hm⟩
    · exact h'
    · exact mem_descendants_iff.2 (Or.inr ⟨c, hc, ih c hc hm⟩)

theorem mem_strictDescendants_trans {n m k : Nat} (h : m ∈ t.strictDescendants n)
    (h' : k ∈ t.descendants m) : k ∈ t.strictDescendants n := by
  obtain ⟨c, hc, hm⟩ := mem_strictDescendants_iff.1 h
  exact mem_strictDescendants_iff.2 ⟨c, hc, mem_descendants_trans hm h'⟩

/-- Numbers do not get smaller on the way down. -/
theorem le_of_mem_descendants {n m : Nat} (h : m ∈ t.descendants n) : n ≤ m := by
  induction n using children_induction (t := t) with
  | step n ih =>
    rcases mem_descendants_iff.1 h with rfl | ⟨c, hc, hm⟩
    · exact Nat.le_refl m
    · have := lt_of_parent (mem_children.1 hc)
      have := ih c hc hm
      omega

theorem lt_count_of_mem_descendants {n m : Nat} (hn : n < t.count) (h : m ∈ t.descendants n) :
    m < t.count := by
  induction n using children_induction (t := t) with
  | step n ih =>
    rcases mem_descendants_iff.1 h with rfl | ⟨c, hc, hm⟩
    · exact hn
    · exact ih c hc (lt_count_of_parent (mem_children.1 hc)) hm

theorem not_mem_strictDescendants_self (t : Tree) (n : Nat) : n ∉ t.strictDescendants n := by
  intro h
  obtain ⟨c, hc, hn⟩ := mem_strictDescendants_iff.1 h
  have := lt_of_parent (mem_children.1 hc)
  have := le_of_mem_descendants hn
  omega

/-- Every node is reached from the root. -/
theorem mem_descendants_root {n : Nat} (hn : n < t.count) : n ∈ t.descendants root := by
  induction n using Nat.strongRecOn with
  | ind n ih =>
    cases hp : t.parent n with
    | none =>
      obtain rfl := (parent_eq_none_iff hn).1 hp
      exact self_mem_descendants t root
    | some p =>
      have hlt := lt_of_parent hp
      exact mem_descendants_trans (ih p hlt (Nat.lt_trans hlt hn))
        (mem_descendants_of_child (mem_children.2 hp))

theorem mem_preOrder {n : Nat} : n ∈ t.preOrder ↔ n < t.count :=
  ⟨lt_count_of_mem_descendants t.root_lt_count, mem_descendants_root⟩

/-! ### Stacks of pairs -/

/-- The work that a stack of pairs stands for: all nodes at and below its left ones. -/
def pending (t : Tree) (stack : List Link) : Nat :=
  (stack.flatMap fun l => t.descendants l.1).length

theorem pending_append (t : Tree) (stack rest : List Link) :
    t.pending (stack ++ rest) = t.pending stack + t.pending rest := by
  rw [pending, List.flatMap_append, List.length_append]
  rfl

theorem pending_cons (t : Tree) (x y : Nat) (stack : List Link) :
    t.pending ((x, y) :: stack) = (t.descendants x).length + t.pending stack := by
  rw [pending, List.flatMap_cons, List.length_append]
  rfl

theorem pending_reverse (t : Tree) (stack : List Link) : t.pending stack.reverse = t.pending stack := by
  induction stack with
  | nil => rfl
  | cons l stack ih =>
    have hcons : t.pending (l :: stack) = t.pending [l] + t.pending stack := t.pending_append [l] stack
    rw [List.reverse_cons, pending_append, ih, hcons, Nat.add_comm]

/-- Putting the children on the stack leaves less work than the node was. -/
theorem pending_children (t u : Tree) (x y : Nat) (stack : List Link) :
    t.pending (((t.children x).zip (u.children y)).reverse ++ stack) < t.pending ((x, y) :: stack) := by
  have hzip : ∀ cs ds : List Nat, t.pending (cs.zip ds) ≤ (cs.flatMap t.descendants).length := by
    intro cs
    induction cs with
    | nil => exact fun ds => Nat.le_refl _
    | cons c cs ih =>
      intro ds
      cases ds with
      | nil => exact Nat.zero_le _
      | cons d ds =>
        have hrest := ih ds
        rw [List.zip_cons_cons, pending_cons, List.flatMap_cons, List.length_append]
        omega
  have hchildren := hzip (t.children x) (u.children y)
  have hnode : (t.descendants x).length = ((t.children x).flatMap t.descendants).length + 1 := by
    rw [descendants_eq, List.length_cons]
  rw [pending_append, pending_reverse, pending_cons]
  omega

/-! ### Links -/

/-- Both ends of `l` lie at or below the ends of `p`. -/
def LinkWithin (t u : Tree) (p l : Link) : Prop :=
  l.1 ∈ t.descendants p.1 ∧ l.2 ∈ u.descendants p.2

theorem LinkWithin.refl (t u : Tree) (p : Link) : LinkWithin t u p p :=
  ⟨self_mem_descendants t p.1, self_mem_descendants u p.2⟩

theorem LinkWithin.trans {p l k : Link} (h : LinkWithin t u p l) (h' : LinkWithin t u l k) :
    LinkWithin t u p k :=
  ⟨mem_descendants_trans h.1 h'.1, mem_descendants_trans h.2 h'.2⟩

theorem linkWithin_of_children {p : Link} {c d : Nat} (hc : c ∈ t.children p.1)
    (hd : d ∈ u.children p.2) : LinkWithin t u p (c, d) :=
  ⟨mem_descendants_of_child hc, mem_descendants_of_child hd⟩

/-- What passes from every pair of nodes to the pairs of their children. -/
def PassesDown (t u : Tree) (W : Link → Prop) : Prop :=
  ∀ l, W l → ∀ c ∈ t.children l.1, ∀ d ∈ u.children l.2, W (c, d)

theorem passesDown_linkWithin (t u : Tree) (p : Link) : PassesDown t u (LinkWithin t u p) :=
  fun _ hl _ hc _ hd => hl.trans (linkWithin_of_children hc hd)

theorem passesDown_strictDescendants (t u : Tree) (a b : Nat) :
    PassesDown t u fun l => l.1 ∈ t.strictDescendants a ∧ l.2 ∈ u.strictDescendants b := by
  intro l hl c hc d hd
  exact ⟨mem_strictDescendants_trans hl.1 (mem_descendants_of_child hc),
    mem_strictDescendants_trans hl.2 (mem_descendants_of_child hd)⟩

/-- What passes down holds at all positions of an overlay if it holds at the top. -/
theorem forall_mem_overlay {W : Link → Prop} (hW : PassesDown t u W) {a b : Nat}
    (h : W (a, b)) : ∀ l ∈ t.overlay u a b, W l := by
  induction a using children_induction (t := t) generalizing b with
  | step a ih =>
    intro l hl
    rw [overlay_eq, List.mem_cons, List.mem_flatMap] at hl
    rcases hl with rfl | ⟨⟨c, d⟩, hcd, hl⟩
    · exact h
    · obtain ⟨hc, hd⟩ := List.of_mem_zip (List.mem_reverse.1 hcd)
      exact ih c hc (hW (a, b) h c hc d hd) l hl

theorem mem_preOrder_zip {a b : Nat} {l : Link} :
    l ∈ ((t.subtree a).zip (u.subtree b)).preOrder ↔ l ∈ t.overlay u a b :=
  Rose.mem_revPreOrder.symm

theorem linkWithin_of_mem_overlay {a b : Nat} {l : Link} (h : l ∈ t.overlay u a b) :
    LinkWithin t u (a, b) l :=
  forall_mem_overlay (passesDown_linkWithin t u (a, b)) (.refl t u (a, b)) l h

end Tree

end Counterpart
