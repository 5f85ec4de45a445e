import Counterpart.Proofs.Tree.Descent
import Counterpart.Text.Layout

/-!
# The tree that a layout gives

Planting puts the nodes of a layout into a syntax tree one by one. Nodes are only ever added below the
node that they are grafted on, `Tree.Extends`, so a subtree that is complete stays as it is while others
follow. In the end the tree holds the layout it was planted from (`placed_plant`).
-/

namespace Counterpart

open Text

namespace Tree

variable {t u w : Tree} {p : Nat}

/-- The atoms and spans at and below `n`. -/
def placed (t : Tree) (n : Nat) : Rose Placed :=
  (t.subtree n).map fun k => ⟨t.atom k, t.span k⟩

theorem placed_eq (t : Tree) (n : Nat) :
    t.placed n = .node ⟨t.atom n, t.span n⟩ ((t.children n).map t.placed) := by
  rw [placed, subtree_eq, Rose.map_node, List.map_map]
  rfl

theorem map_atom_placed (t : Tree) (n : Nat) : (t.placed n).map Placed.atom = t.term n := by
  induction n using children_induction (t := t) with
  | step n ih =>
    rw [placed_eq, term_eq, Rose.map_node, List.map_map]
    exact congrArg (Rose.node (t.atom n)) (List.map_congr_left ih)

/-- Where two trees have the same nodes and children all the way down, they hold the same. -/
theorem placed_congr {n : Nat}
    (h : ∀ k ∈ t.descendants n, u.node k = t.node k ∧ u.children k = t.children k) :
    u.placed n = t.placed n := by
  induction n using children_induction (t := t) with
  | step n ih =>
    obtain ⟨hnode, hchildren⟩ := h n (self_mem_descendants t n)
    have hatom : u.atom n = t.atom n := congrArg Node.atom hnode
    have hspan : u.span n = t.span n := congrArg Node.span hnode
    rw [placed_eq, placed_eq t, hatom, hspan, hchildren]
    refine congrArg _ (List.map_congr_left fun c hc => ih c hc fun k hk => ?_)
    exact h k (mem_descendants_trans (mem_descendants_of_child hc) hk)

/-! ### Growing below a node -/

/-- `u` is `t` with further nodes at the end, of which `new` are children of `p` and the others are below
these. -/
structure Extends (t u : Tree) (p : Nat) (new : List Nat) : Prop where
  count_le : t.count ≤ u.count
  node_eq : ∀ k < t.count, u.node k = t.node k
  children_eq : ∀ k < t.count, u.children k = t.children k ++ if p = k then new else []

theorem extends_refl (t : Tree) (p : Nat) : Extends t t p [] where
  count_le := Nat.le_refl _
  node_eq _ _ := rfl
  children_eq k _ := by rw [ite_self, List.append_nil]

theorem Extends.trans {ns ms : List Nat} (h : Extends t u p ns) (h' : Extends u w p ms) :
    Extends t w p (ns ++ ms) where
  count_le := Nat.le_trans h.count_le h'.count_le
  node_eq k hk := by
    have hk' : k < u.count := Nat.lt_of_lt_of_le hk h.count_le
    rw [h'.node_eq k hk', h.node_eq k hk]
  children_eq k hk := by
    have hk' : k < u.count := Nat.lt_of_lt_of_le hk h.count_le
    rw [h'.children_eq k hk', h.children_eq k hk, List.append_assoc]
    split <;> rfl

/-- Growing below a node that is new is growing below its parent. -/
theorem Extends.below {q : Nat} {ns ms : List Nat} (h : Extends t u p ns) (h' : Extends u w q ms)
    (hq : t.count ≤ q) : Extends t w p ns where
  count_le := Nat.le_trans h.count_le h'.count_le
  node_eq k hk := by
    have hk' : k < u.count := Nat.lt_of_lt_of_le hk h.count_le
    rw [h'.node_eq k hk', h.node_eq k hk]
  children_eq k hk := by
    have hk' : k < u.count := Nat.lt_of_lt_of_le hk h.count_le
    have hne : q ≠ k := by omega
    rw [h'.children_eq k hk', if_neg hne, List.append_nil, h.children_eq k hk]

theorem extends_addChild (hp : p < t.count) (a : Atom) (s : Span) :
    Extends t (t.addChild p a s) p [t.count] where
  count_le := by
    rw [count_addChild hp]
    exact Nat.le_succ _
  node_eq k hk := by rw [node_addChild hp, if_neg (Nat.ne_of_lt hk)]
  children_eq k _ := children_addChild hp a s k

/-- The root of a tree without other nodes gets the children that are grafted on it. -/
theorem Extends.children_root {a : Atom} {s : Span} {ns : List Nat}
    (h : Extends (single a s) u root ns) : u.children root = ns := by
  have hnone : (single a s).children root = [] := by
    rw [Tree.children_eq]
    rfl
  rw [h.children_eq _ (root_lt_count _), if_pos rfl, hnone, List.nil_append]

/-- So does a node that was just added: it had no children before. -/
theorem Extends.children_new {a : Atom} {s : Span} {ns : List Nat} (hp : p < t.count)
    (h : Extends (t.addChild p a s) u t.count ns) : u.children t.count = ns := by
  have hnew : t.count < (t.addChild p a s).count := by
    rw [count_addChild hp]
    exact Nat.lt_succ_self _
  rw [h.children_eq _ hnew, if_pos rfl, children_addChild hp, if_neg (Nat.ne_of_lt hp),
    children_of_count_le (Nat.le_refl _)]
  rfl

/-- A subtree that does not hold `p` stays as it is. -/
theorem Extends.placed_eq {ns : List Nat} {n : Nat} (h : Extends t u p ns) (hn : n < t.count)
    (hp : p ∉ t.descendants n) : u.placed n = t.placed n := by
  refine placed_congr fun k hk => ?_
  have hk' : k < t.count := lt_count_of_mem_descendants hn hk
  have hne : p ≠ k := by
    rintro rfl
    exact hp hk
  rw [h.node_eq k hk', h.children_eq k hk', if_neg hne, List.append_nil]
  exact ⟨rfl, rfl⟩

end Tree

/-! ### Grafting -/

namespace Text

open Counterpart.Tree

mutual

/-- Grafting a layout adds a child to `p`, at which the tree holds the layout. -/
theorem graft_spec : ∀ (r : Rose Placed) (t : Tree) (p : Nat), p < t.count →
    Extends t (graft t p r) p [t.count] ∧ (graft t p r).placed t.count = r
  | .node v cs, t, p, hp => by
    have hnew : t.count < (t.addChild p v.atom v.span).count := by
      rw [count_addChild hp]
      exact Nat.lt_succ_self _
    obtain ⟨ns, hext, hns⟩ := graftAll_spec cs (t.addChild p v.atom v.span) t.count hnew
    rw [graft]
    refine ⟨(extends_addChild hp v.atom v.span).below hext (Nat.le_refl _), ?_⟩
    have hnode : (graftAll (t.addChild p v.atom v.span) t.count cs).node t.count =
        { atom := v.atom, span := v.span, parent := some p } := by
      rw [hext.node_eq _ hnew, node_addChild hp, if_pos rfl]
    rw [placed_eq, hext.children_new hp, hns, atom, span, hnode]

/-- Grafting layouts one after the other adds one child to `p` for each of them, in order. -/
theorem graftAll_spec : ∀ (cs : List (Rose Placed)) (t : Tree) (p : Nat), p < t.count →
    ∃ ns, Extends t (graftAll t p cs) p ns ∧ ns.map (graftAll t p cs).placed = cs
  | [], t, p, _ => ⟨[], extends_refl t p, rfl⟩
  | c :: cs, t, p, hp => by
    obtain ⟨hfirst, hc⟩ := graft_spec c t p hp
    have hp' : p < (graft t p c).count := Nat.lt_of_lt_of_le hp hfirst.count_le
    obtain ⟨ns, hrest, hns⟩ := graftAll_spec cs (graft t p c) p hp'
    rw [graftAll]
    refine ⟨t.count :: ns, hfirst.trans hrest, ?_⟩
    -- `p` is older than the first graft, which therefore stays as it is
    have hout : p ∉ (graft t p c).descendants t.count := by
      intro hmem
      have := le_of_mem_descendants hmem
      omega
    have hnew : t.count < (graft t p c).count := by
      have hchild : t.count ∈ (graft t p c).children p := by
        rw [hfirst.children_eq p hp, if_pos rfl]
        exact List.mem_append_right _ (List.mem_singleton_self _)
      exact lt_count_of_parent (mem_children.1 hchild)
    rw [List.map_cons, hrest.placed_eq hnew hout, hc, hns]

end

/-- The tree that is planted from a layout holds the layout. -/
theorem placed_plant (r : Rose Placed) : (plant r).placed root = r := by
  obtain ⟨v, cs⟩ := r
  have hroot : root < (single v.atom v.span).count := root_lt_count _
  obtain ⟨ns, hext, hns⟩ := graftAll_spec cs (single v.atom v.span) root hroot
  have hnode : (graftAll (single v.atom v.span) root cs).node root =
      { atom := v.atom, span := v.span, parent := none } :=
    hext.node_eq _ hroot
  show (graftAll (single v.atom v.span) root cs).placed root = _
  rw [placed_eq, hext.children_root, hns, atom, span, hnode]

end Text

end Counterpart
