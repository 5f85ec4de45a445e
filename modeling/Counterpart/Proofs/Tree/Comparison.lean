import Counterpart.Proofs.Tree.Descent
import Counterpart.Tree.Isomorphism

/-!
# Comparing subtrees with a stack

`Tree.compare` goes over two trees at once. A stack holds the pairs of nodes that are still to be compared;
a pair is taken from it, and if the two nodes agree and have equally many children, the pairs of children
are put on it. The outcome is whether the terms are the same in the view of the test
(`compare_eq_true_iff`), so nothing is left out by going on with the children that both sides have.
-/

namespace Counterpart

theorem map_eq_map_iff_zip {α β γ : Type} {f : α → γ} {g : β → γ} {xs : List α} {ys : List β} :
    xs.map f = ys.map g ↔ xs.length = ys.length ∧ ∀ l ∈ xs.zip ys, f l.1 = g l.2 := by
  induction xs generalizing ys with
  | nil => cases ys <;> simp
  | cons x xs ih =>
    cases ys with
    | nil => simp
    | cons y ys =>
      rw [List.map_cons, List.map_cons, List.cons.injEq, ih, List.zip_cons_cons, List.forall_mem_cons,
        List.length_cons, List.length_cons, Nat.add_right_cancel_iff]
      exact and_left_comm

theorem Rose.map_same {α : Type} (r : Rose α) : r.map (fun a => a) = r := by
  induction r using Rose.ind with
  | node a cs ih => rw [Rose.map_node, List.map_congr_left ih, List.map_id']

namespace Atom

/-- Whether two atoms have the same kind and the same label. -/
def same (a b : Atom) : Bool :=
  a.kind == b.kind && a.label == b.label

/-- Whether two atoms have the same kind and, if it is a keyword kind, the same label. -/
def sameShape (a b : Atom) : Bool :=
  a.kind == b.kind && (!a.kind.isKeyword || a.label == b.label)

variable {a b : Atom}

theorem same_iff : same a b = true ↔ a = b := by
  rw [same, Bool.and_eq_true, beq_iff_eq, beq_iff_eq, ← Atom.mk.injEq]

theorem sameShape_iff : sameShape a b = true ↔ a.outline = b.outline := by
  obtain ⟨k, l⟩ := a
  obtain ⟨k', l'⟩ := b
  rw [sameShape, Bool.and_eq_true, beq_iff_eq]
  unfold outline
  constructor
  · rintro ⟨rfl : k = k', hlabel⟩
    cases hkey : k.isKeyword with
    | true =>
      rw [hkey, Bool.not_true, Bool.false_or, beq_iff_eq] at hlabel
      obtain rfl : l = l' := hlabel
      rfl
    | false => simp
  · intro h
    have hkind : k = k' := by
      have hkinds := congrArg Atom.kind h
      simpa only [apply_ite Atom.kind, ite_self] using hkinds
    subst hkind
    refine ⟨rfl, ?_⟩
    cases hkey : k.isKeyword with
    | true => simpa [hkey] using h
    | false => rfl

/-- Atoms of the same shape have the same kind, and the same label if it is a keyword. -/
theorem outline_eq_iff :
    a.outline = b.outline ↔ a.kind = b.kind ∧ (a.kind.isKeyword = true → a.label = b.label) := by
  rw [← sameShape_iff, sameShape, Bool.and_eq_true, beq_iff_eq, Bool.or_eq_true, Bool.not_eq_true',
    beq_iff_eq, ← Bool.not_eq_true, Decidable.imp_iff_not_or]

end Atom

namespace Tree

variable {t u : Tree}

/-- Compare the pairs of nodes on a stack, the last pair of children first. -/
def compare (t u : Tree) (same : Atom → Atom → Bool) : List Link → Bool
  | [] => true
  | (x, y) :: stack =>
    if same (t.atom x) (u.atom y) = true ∧ (t.children x).length = (u.children y).length then
      compare t u same (((t.children x).zip (u.children y)).reverse ++ stack)
    else false
termination_by stack => t.pending stack
decreasing_by exact pending_children t u x y stack

/-- Two terms are the same in some view if the roots are, there are equally many children, and these are
the same pair by pair. -/
theorem map_term_eq_iff {view : Atom → Atom} {x y : Nat} :
    (t.term x).map view = (u.term y).map view ↔
      (view (t.atom x) = view (u.atom y) ∧ (t.children x).length = (u.children y).length) ∧
        ∀ l ∈ (t.children x).zip (u.children y), (t.term l.1).map view = (u.term l.2).map view := by
  rw [term_eq, term_eq u, Rose.map_node, Rose.map_node, Rose.node.injEq, List.map_map, List.map_map,
    map_eq_map_iff_zip, and_assoc]
  rfl

/-- The comparison succeeds if and only if the terms of each pair on the stack are the same in the view
of the test. -/
theorem compare_eq_true_iff {same : Atom → Atom → Bool} {view : Atom → Atom}
    (hsame : ∀ a b, same a b = true ↔ view a = view b) (stack : List Link) :
    t.compare u same stack = true ↔ ∀ l ∈ stack, (t.term l.1).map view = (u.term l.2).map view := by
  fun_induction compare t u same stack with
  | case1 => simp
  | case2 x y stack h ih =>
    rw [ih, List.forall_mem_append, List.forall_mem_cons, map_term_eq_iff, ← hsame]
    simp only [List.mem_reverse, and_iff_right h]
  | case3 x y stack h =>
    rw [List.forall_mem_cons, map_term_eq_iff, ← hsame]
    simp [h]

theorem compare_same (t u : Tree) (a b : Nat) :
    t.compare u Atom.same [(a, b)] = decide (t.term a = u.term b) := by
  have hview : ∀ a b, Atom.same a b = true ↔ a = b := fun _ _ => Atom.same_iff
  rw [Bool.eq_iff_iff, compare_eq_true_iff hview, decide_eq_true_iff]
  simp [Rose.map_same]

theorem compare_sameShape (t u : Tree) (a b : Nat) :
    t.compare u Atom.sameShape [(a, b)] =
      decide (Term.outline (t.term a) = Term.outline (u.term b)) := by
  have hview : ∀ a b, Atom.sameShape a b = true ↔ a.outline = b.outline := fun _ _ => Atom.sameShape_iff
  rw [Bool.eq_iff_iff, compare_eq_true_iff hview, decide_eq_true_iff]
  simp [Term.outline]

end Tree

end Counterpart
