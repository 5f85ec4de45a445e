import Counterpart.NodeTable
import Counterpart.Span
import Counterpart.Term

/-!
# Syntax trees

A `Tree` is one version of one file as an ordered tree of positioned nodes. Nodes are numbered in
the order in which they were created, the root being node 0, and a node is created under one that
exists: the number of a parent is less than that of its children. Children are ordered by number.
-/

namespace Counterpart

/-- A node of a syntax tree. -/
structure Node where
  atom : Atom
  span : Span
  /-- The number of the parent; the root has none. -/
  parent : Option Nat
  measures : Measures := .unset

instance : Inhabited Node :=
  ⟨{ atom := default, span := default, parent := none }⟩

/-- The numbers of the nodes that have node `n` as their parent, in order. -/
def childrenAmong (nodes : Array Node) (n : Nat) : List Nat :=
  (List.range nodes.size).filter fun c => (nodes.getD c default).parent == some n

/-- A syntax tree: its nodes in the order of their creation, with an index of their children. -/
structure Tree where
  nodes : Array Node
  childIndex : NodeTable (List Nat)
  nonempty : 0 < nodes.size
  /-- Only the root has no parent. -/
  eq_root : ∀ (i : Nat) (v : Node), nodes[i]? = some v → v.parent = none → i = 0
  /-- Parents are created before their children. -/
  parent_lt : ∀ (i : Nat) (v : Node) (p : Nat), nodes[i]? = some v → v.parent = some p → p < i
  /-- The index holds the children of every node. -/
  childIndex_get : ∀ n, childIndex.get n = childrenAmong nodes n

namespace Tree

/-- The number of the root. -/
def root : Nat := 0

/-- The number of nodes. -/
def count (t : Tree) : Nat :=
  t.nodes.size

/-- The node with number `n`. A number that names no node reads as an unlabelled leaf without a
parent. -/
def node (t : Tree) (n : Nat) : Node :=
  t.nodes.getD n default

def atom (t : Tree) (n : Nat) : Atom := (t.node n).atom
def kind (t : Tree) (n : Nat) : Kind := (t.node n).atom.kind
def label (t : Tree) (n : Nat) : Option String := (t.node n).atom.label
def span (t : Tree) (n : Nat) : Span := (t.node n).span
def parent (t : Tree) (n : Nat) : Option Nat := (t.node n).parent
def measures (t : Tree) (n : Nat) : Measures := (t.node n).measures
def digest (t : Tree) (n : Nat) : Digest := (t.measures n).digest
def shape (t : Tree) (n : Nat) : Digest := (t.measures n).shape
def height (t : Tree) (n : Nat) : Nat := (t.measures n).height
def size (t : Tree) (n : Nat) : Nat := (t.measures n).size

/-- The children of a node, in order. -/
def children (t : Tree) (n : Nat) : List Nat :=
  t.childIndex.get n

/-- The child at a position, counted from 0. -/
def child? (t : Tree) (n i : Nat) : Option Nat :=
  (t.children n)[i]?

/-- Whether a node has no children. -/
def isLeaf (t : Tree) (n : Nat) : Bool :=
  (t.children n).isEmpty

/-- The position of a node among its siblings, counted from 0; the root is at position 0. -/
def position (t : Tree) (n : Nat) : Nat :=
  match t.parent n with
  | none => 0
  | some p => (t.children p).idxOf n

/-! ### Construction -/

theorem childrenAmong_push (nodes : Array Node) (v : Node) (n : Nat) :
    childrenAmong (nodes.push v) n =
      childrenAmong nodes n ++ if v.parent = some n then [nodes.size] else [] := by
  have hold : ∀ c ∈ List.range nodes.size,
      (((nodes.push v).getD c default).parent == some n) =
        ((nodes.getD c default).parent == some n) := by
    intro c hc
    have hne : ¬ c = nodes.size := Nat.ne_of_lt (List.mem_range.1 hc)
    simp only [Array.getD_eq_getD_getElem?, Array.getElem?_push, if_neg hne]
  have hnew : ((nodes.push v).getD nodes.size default).parent = v.parent := by
    simp [Array.getD_eq_getD_getElem?]
  rw [childrenAmong, Array.size_push, List.range_succ, List.filter_append, List.filter_congr hold]
  simp only [List.filter_cons, hnew, beq_iff_eq, List.filter_nil]
  rfl

/-- The tree whose only node is its root. -/
def single (a : Atom) (s : Span) : Tree where
  nodes := #[{ atom := a, span := s, parent := none }]
  childIndex := .empty
  nonempty := by simp
  eq_root := by
    intro i v hv _
    have := (Array.getElem?_eq_some_iff.1 hv).1
    simp at this
    exact this
  parent_lt := by
    intro i v p hv hp
    obtain ⟨hi, rfl⟩ := Array.getElem?_eq_some_iff.1 hv
    simp at hp
  childIndex_get := by
    intro n
    rw [NodeTable.get_empty]
    rfl

/-- Append a child under node `p`; its number is the number of nodes so far. A number that names
no node leaves the tree as it is. -/
def addChild (t : Tree) (p : Nat) (a : Atom) (s : Span) : Tree :=
  if hp : p < t.count then
    { nodes := t.nodes.push { atom := a, span := s, parent := some p }
      childIndex := t.childIndex.set p (t.childIndex.get p ++ [t.nodes.size])
      nonempty := by simp
      eq_root := by
        intro i v hv hn
        rw [Array.getElem?_push] at hv
        split at hv
        · cases hv; cases hn
        · exact t.eq_root i v hv hn
      parent_lt := by
        intro i v q hv hq
        rw [Array.getElem?_push] at hv
        split at hv
        · next h => cases hv; cases hq; exact h ▸ hp
        · exact t.parent_lt i v q hv hq
      childIndex_get := by
        intro n
        rw [childrenAmong_push, NodeTable.get_set, t.childIndex_get, t.childIndex_get]
        by_cases h : n = p
        · subst h; simp
        · rw [if_neg h, if_neg fun e => h (Option.some.inj e).symm, List.append_nil] }
  else t

/-- Replace the stored values of node `n`. -/
def setMeasures (t : Tree) (n : Nat) (m : Measures) : Tree where
  nodes := t.nodes.modify n fun v => { v with measures := m }
  childIndex := t.childIndex
  nonempty := by simpa using t.nonempty
  eq_root := by
    intro i v hv hn
    rw [Array.getElem?_modify] at hv
    split at hv
    · obtain ⟨w, hw, rfl⟩ := Option.map_eq_some_iff.1 hv
      exact t.eq_root i w hw hn
    · exact t.eq_root i v hv hn
  parent_lt := by
    intro i v p hv hp
    rw [Array.getElem?_modify] at hv
    split at hv
    · obtain ⟨w, hw, rfl⟩ := Option.map_eq_some_iff.1 hv
      exact t.parent_lt i w p hw hp
    · exact t.parent_lt i v p hv hp
  childIndex_get := by
    intro k
    rw [t.childIndex_get, childrenAmong, childrenAmong, Array.size_modify]
    refine List.filter_congr fun c _ => ?_
    have h : ((t.nodes.modify n fun v => { v with measures := m }).getD c default).parent =
        (t.nodes.getD c default).parent := by
      simp only [Array.getD_eq_getD_getElem?, Array.getElem?_modify]
      split
      · cases t.nodes[c]? <;> rfl
      · rfl
    rw [h]

/-! ### Parents and children -/

theorem nodes_getElem? {t : Tree} {n : Nat} (h : n < t.count) : t.nodes[n]? = some (t.node n) := by
  have h' : n < t.nodes.size := h
  simp [node, Array.getD, h']

theorem node_of_count_le {t : Tree} {n : Nat} (h : t.count ≤ n) : t.node n = default := by
  have h' : ¬ n < t.nodes.size := Nat.not_lt.2 h
  simp [node, Array.getD, h']

theorem lt_count_of_parent {t : Tree} {n p : Nat} (h : t.parent n = some p) : n < t.count := by
  refine Nat.lt_of_not_le fun hn => ?_
  rw [parent, node_of_count_le hn] at h
  cases h

/-- A parent has a smaller number than its children. -/
theorem lt_of_parent {t : Tree} {n p : Nat} (h : t.parent n = some p) : p < n :=
  t.parent_lt n (t.node n) p (nodes_getElem? (lt_count_of_parent h)) h

/-- The root is the only node without a parent. -/
theorem parent_eq_none_iff {t : Tree} {n : Nat} (hn : n < t.count) :
    t.parent n = none ↔ n = root := by
  refine ⟨fun h => t.eq_root n (t.node n) (nodes_getElem? hn) h, ?_⟩
  rintro rfl
  cases h : t.parent root with
  | none => rfl
  | some p => exact absurd (lt_of_parent h) (Nat.not_lt_zero p)

/-- The children of a node are those that have it as their parent. -/
theorem children_eq (t : Tree) (n : Nat) :
    t.children n = (List.range t.count).filter fun c => t.parent c == some n :=
  t.childIndex_get n

theorem mem_children {t : Tree} {n c : Nat} : c ∈ t.children n ↔ t.parent c = some n := by
  simp only [children_eq, List.mem_filter, List.mem_range, beq_iff_eq, and_iff_right_iff_imp]
  exact lt_count_of_parent

theorem nodup_children (t : Tree) (n : Nat) : (t.children n).Nodup := by
  rw [children_eq]
  exact List.nodup_range.filter _

theorem children_of_count_le {t : Tree} {n : Nat} (h : t.count ≤ n) : t.children n = [] := by
  refine List.eq_nil_iff_forall_not_mem.2 fun c hc => ?_
  have hp := mem_children.1 hc
  have := lt_of_parent hp
  have := lt_count_of_parent hp
  omega

theorem root_lt_count (t : Tree) : root < t.count :=
  t.nonempty

/-! ### What the operations leave alone -/

@[simp] theorem count_setMeasures (t : Tree) (n : Nat) (m : Measures) :
    (t.setMeasures n m).count = t.count :=
  Array.size_modify

theorem node_setMeasures (t : Tree) (n k : Nat) (m : Measures) :
    (t.setMeasures n m).node k =
      if n = k ∧ k < t.count then { t.node k with measures := m } else t.node k := by
  simp only [node, setMeasures, Array.getD_eq_getD_getElem?, Array.getElem?_modify]
  by_cases hk : k < t.count
  · have hk' : k < t.nodes.size := hk
    by_cases h : n = k <;> simp [h, hk, hk']
  · have hk' : t.nodes[k]? = none := Array.getElem?_eq_none (Nat.le_of_not_lt hk)
    simp [hk, hk']

@[simp] theorem atom_setMeasures (t : Tree) (n k : Nat) (m : Measures) :
    (t.setMeasures n m).atom k = t.atom k := by
  rw [atom, atom, node_setMeasures]
  split <;> rfl

@[simp] theorem span_setMeasures (t : Tree) (n k : Nat) (m : Measures) :
    (t.setMeasures n m).span k = t.span k := by
  rw [span, span, node_setMeasures]
  split <;> rfl

@[simp] theorem parent_setMeasures (t : Tree) (n k : Nat) (m : Measures) :
    (t.setMeasures n m).parent k = t.parent k := by
  rw [parent, parent, node_setMeasures]
  split <;> rfl

@[simp] theorem children_setMeasures (t : Tree) (n k : Nat) (m : Measures) :
    (t.setMeasures n m).children k = t.children k :=
  rfl

theorem measures_setMeasures (t : Tree) (n k : Nat) (m : Measures) :
    (t.setMeasures n m).measures k = if n = k ∧ k < t.count then m else t.measures k := by
  rw [measures, measures, node_setMeasures]
  split <;> rfl

theorem count_addChild {t : Tree} {p : Nat} (hp : p < t.count) (a : Atom) (s : Span) :
    (t.addChild p a s).count = t.count + 1 := by
  rw [addChild, dif_pos hp]
  exact Array.size_push _

theorem node_addChild {t : Tree} {p : Nat} (hp : p < t.count) (a : Atom) (s : Span) (k : Nat) :
    (t.addChild p a s).node k =
      if k = t.count then { atom := a, span := s, parent := some p } else t.node k := by
  simp only [addChild, dif_pos hp, node, Array.getD_eq_getD_getElem?, Array.getElem?_push]
  change (if k = t.count then some _ else t.nodes[k]?).getD default = _
  by_cases h : k = t.count
  · rw [if_pos h, if_pos h]; rfl
  · rw [if_neg h, if_neg h]

theorem children_addChild {t : Tree} {p : Nat} (hp : p < t.count) (a : Atom) (s : Span) (k : Nat) :
    (t.addChild p a s).children k = t.children k ++ if p = k then [t.count] else [] := by
  rw [children_eq, children_eq, count_addChild hp, List.range_succ, List.filter_append]
  congr 1
  · refine List.filter_congr fun c hc => ?_
    rw [parent, parent, node_addChild hp, if_neg (Nat.ne_of_lt (List.mem_range.1 hc))]
  · simp [parent, node_addChild hp, List.filter_cons]

end Tree

end Counterpart
