import Counterpart.Proofs.LinkSet
import Counterpart.Proofs.Tree.Descent
import Mathlib.Data.Finset.Insert

/-!
# The four indexes of a link set

A link set may be kept in four places: a list in the order of insertion, a set that tells repetitions, and
a map from the nodes of either side to their counterparts. However it is made, these answer every question
as the link set does (`Indexes.Agrees`). All ways to make a link set are the recipes of `Recipe`, and what
they have in common is `recipe_laws`: no operation takes anything back, and union is a union of relations.
-/

namespace Counterpart

namespace LinkSet

variable {x y z : LinkSet}

/-! ### What insertion appends -/

theorem pairs_prefix_insert (x : LinkSet) (s d : Nat) : x.pairs <+: (x.insert s d).pairs := by
  rw [pairs_insert]
  split
  · exact List.prefix_refl _
  · exact List.prefix_append _ _

theorem pairs_prefix_insertMany (x : LinkSet) (ls : List Link) : x.pairs <+: (x.insertMany ls).pairs := by
  induction ls generalizing x with
  | nil => exact List.prefix_refl _
  | cons l ls ih => exact (x.pairs_prefix_insert l.1 l.2).trans (ih _)

/-- Of links without repetitions those are appended which are not there. -/
theorem WellFormed.pairs_insertMany (h : x.WellFormed) {ls : List Link} (hls : ls.Nodup) :
    (x.insertMany ls).pairs = x.pairs ++ ls.filter fun l => decide (l ∉ x.pairs) := by
  induction ls generalizing x with
  | nil => rw [insertMany_nil, List.filter_nil, List.append_nil]
  | cons l ls ih =>
    obtain ⟨hl, hls⟩ := List.nodup_cons.1 hls
    rw [insertMany_cons, ih (h.insert l.1 l.2) hls, pairs_insert]
    by_cases hmem : l ∈ x.pairs
    · rw [if_pos (h.contains_iff.2 hmem), List.filter_cons_of_neg (by simpa using hmem)]
    · have hnew : ¬ x.contains l.1 l.2 = true := fun hc => hmem (h.contains_iff.1 hc)
      -- `l` is not among the others, so its insertion does not change which of them are new
      have hrest : (ls.filter fun k => decide (k ∉ x.pairs ++ [l])) =
          ls.filter fun k => decide (k ∉ x.pairs) := by
        refine List.filter_congr fun k hk => ?_
        have hne : k ≠ l := fun e => hl (e ▸ hk)
        simp [hne]
      rw [if_neg hnew, List.filter_cons_of_pos (by simpa using hmem), hrest, List.append_assoc]
      rfl

theorem WellFormed.pairs_union (h : x.WellFormed) (hy : y.WellFormed) :
    (x.union y).pairs = x.pairs ++ y.pairs.filter fun l => decide (l ∉ x.pairs) :=
  h.pairs_insertMany hy.nodup

protected theorem WellFormed.union (h : x.WellFormed) (y : LinkSet) : (x.union y).WellFormed :=
  h.insertMany y.pairs

/-! ### Four indexes -/

/-- The links in order, as a set, and by either end. -/
structure Indexes where
  order : List Link
  known : Finset Link
  forward : Nat → Option (List Nat)
  backward : Nat → Option (List Nat)

namespace Indexes

def empty : Indexes where
  order := []
  known := ∅
  forward _ := none
  backward _ := none

/-- Append a counterpart at a key, which is created if it is not there. -/
def push (m : Nat → Option (List Nat)) (key value : Nat) : Nat → Option (List Nat) := fun k =>
  if k = key then some ((m k).getD [] ++ [value]) else m k

/-- Link `s` to `d`, unless the set knows the link. -/
def insert (i : Indexes) (s d : Nat) : Indexes :=
  if (s, d) ∈ i.known then i
  else
    { order := i.order ++ [(s, d)]
      known := Insert.insert (s, d) i.known
      forward := push i.forward s d
      backward := push i.backward d s }

def insertMany (i : Indexes) (links : List Link) : Indexes :=
  links.foldl (fun j l => j.insert l.1 l.2) i

/-- Link the pairs on a stack and all that stands below them on both sides: the pairs of children are put
on the stack, the last one on top. -/
def insertBelow (t u : Tree) (i : Indexes) : List Link → Indexes
  | [] => i
  | (s, d) :: stack =>
    insertBelow t u (i.insert s d) (((t.children s).zip (u.children d)).reverse ++ stack)
termination_by stack => t.pending stack
decreasing_by exact Tree.pending_children t u s d stack

def union (i j : Indexes) : Indexes :=
  i.insertMany j.order

def contains (i : Indexes) (s d : Nat) : Bool := decide ((s, d) ∈ i.known)
def targets (i : Indexes) (s : Nat) : List Nat := (i.forward s).getD []
def sources (i : Indexes) (d : Nat) : List Nat := (i.backward d).getD []
def hasSource (i : Indexes) (s : Nat) : Bool := (i.forward s).isSome
def hasTarget (i : Indexes) (d : Nat) : Bool := (i.backward d).isSome
def sameRelation (i j : Indexes) : Bool := decide (i.known = j.known)

/-- A push keeps a map in step with the lists that it holds, where a key is one with a list that is not
empty. -/
theorem push_agrees {m : Nat → Option (List Nat)} {f : Nat → List Nat}
    (hm : ∀ k, (m k).getD [] = f k ∧ (m k).isSome = !(f k).isEmpty) (key value k : Nat) :
    (push m key value k).getD [] = (if k = key then f k ++ [value] else f k) ∧
      (push m key value k).isSome = !(if k = key then f k ++ [value] else f k).isEmpty := by
  unfold push
  by_cases hk : k = key
  · rw [if_pos hk, if_pos hk, (hm k).1]
    simp
  · rw [if_neg hk, if_neg hk]
    exact hm k

/-- Linking along a stack inserts the overlays of its pairs, one after the other. -/
theorem insertBelow_eq (t u : Tree) (i : Indexes) (stack : List Link) :
    i.insertBelow t u stack = i.insertMany (stack.flatMap fun l => t.overlay u l.1 l.2) := by
  fun_induction insertBelow t u i stack with
  | case1 i => rfl
  | case2 i s d stack ih =>
    rw [ih, List.flatMap_cons, Tree.overlay_eq, List.flatMap_append]
    rfl

/-- Every question has the same answer. -/
structure Agrees (i : Indexes) (x : LinkSet) : Prop where
  order_eq : i.order = x.pairs
  contains_eq : ∀ s d, i.contains s d = x.contains s d
  targets_eq : ∀ s, i.targets s = x.targets s
  sources_eq : ∀ d, i.sources d = x.sources d
  hasSource_eq : ∀ s, i.hasSource s = x.hasSource s
  hasTarget_eq : ∀ d, i.hasTarget d = x.hasTarget d

theorem agrees_empty : empty.Agrees LinkSet.empty where
  order_eq := rfl
  contains_eq := by simp [contains, empty, LinkSet.contains]
  targets_eq := by simp [targets, empty]
  sources_eq := by simp [sources, empty]
  hasSource_eq := by simp [hasSource, empty, LinkSet.hasSource]
  hasTarget_eq := by simp [hasTarget, empty, LinkSet.hasTarget]

namespace Agrees

variable {i j : Indexes}

theorem mem_known_iff (h : i.Agrees x) {s d : Nat} : (s, d) ∈ i.known ↔ x.contains s d = true := by
  rw [← h.contains_eq, contains, decide_eq_true_iff]

protected theorem insert (h : i.Agrees x) (s d : Nat) : (i.insert s d).Agrees (x.insert s d) := by
  cases hc : x.contains s d with
  | true =>
    rw [Indexes.insert, if_pos (h.mem_known_iff.2 hc), LinkSet.insert, if_pos hc]
    exact h
  | false =>
    have hnew : (s, d) ∉ i.known := fun hmem => by
      rw [h.mem_known_iff.1 hmem] at hc
      cases hc
    have htargets : ∀ a, (x.insert s d).targets a = if a = s then x.targets a ++ [d] else x.targets a := by
      intro a
      rw [targets_insert, hc]
      simp
    have hsources : ∀ b, (x.insert s d).sources b = if b = d then x.sources b ++ [s] else x.sources b := by
      intro b
      rw [sources_insert, hc]
      simp
    have hforward := push_agrees (fun a => ⟨h.targets_eq a, h.hasSource_eq a⟩) s d
    have hbackward := push_agrees (fun b => ⟨h.sources_eq b, h.hasTarget_eq b⟩) d s
    rw [Indexes.insert, if_neg hnew]
    constructor
    · rw [pairs_insert, hc, ← h.order_eq]
      rfl
    · intro a b
      rw [Bool.eq_iff_iff, contains, decide_eq_true_iff, Finset.mem_insert, h.mem_known_iff,
        LinkSet.contains, LinkSet.contains, List.contains_iff_mem, List.contains_iff_mem, htargets,
        Prod.mk.injEq]
      by_cases ha : a = s
      · rw [if_pos ha, List.mem_append, List.mem_singleton, and_iff_right ha, or_comm]
      · rw [if_neg ha, or_iff_right fun e => ha e.1]
    · exact fun a => (hforward a).1.trans (htargets a).symm
    · exact fun b => (hbackward b).1.trans (hsources b).symm
    · intro a
      rw [LinkSet.hasSource, htargets]
      exact (hforward a).2
    · intro b
      rw [LinkSet.hasTarget, hsources]
      exact (hbackward b).2

protected theorem insertMany (h : i.Agrees x) (ls : List Link) :
    (i.insertMany ls).Agrees (x.insertMany ls) := by
  induction ls generalizing i x with
  | nil => exact h
  | cons l ls ih => exact ih (h.insert l.1 l.2)

protected theorem insertBelow (h : i.Agrees x) (t u : Tree) (a b : Nat) :
    (i.insertBelow t u [(a, b)]).Agrees (x.insertMany (t.overlay u a b)) := by
  rw [insertBelow_eq, List.flatMap_singleton]
  exact h.insertMany _

protected theorem union (h : i.Agrees x) (hj : j.Agrees y) : (i.union j).Agrees (x.union y) := by
  rw [Indexes.union, hj.order_eq]
  exact h.insertMany _

/-- Equality of the sets is equality of the relations. -/
theorem sameRelation_eq (h : i.Agrees x) (hj : j.Agrees y) (hx : x.WellFormed) (hy : y.WellFormed) :
    i.sameRelation j = x.sameRelation y := by
  rw [Bool.eq_iff_iff, Indexes.sameRelation, decide_eq_true_iff, hx.sameRelation_iff hy, Finset.ext_iff]
  refine forall_congr' fun l => ?_
  rw [← hx.contains_iff, ← hy.contains_iff, ← h.mem_known_iff, ← hj.mem_known_iff]

end Agrees

end Indexes

/-! ### All ways to make a link set -/

/-- A way to make a link set from the empty one. -/
inductive Recipe where
  | empty
  | insert (r : Recipe) (s d : Nat)
  | insertBelow (r : Recipe) (t u : Tree) (a b : Nat)
  | insertMany (r : Recipe) (links : List Link)
  | union (r q : Recipe)

namespace Recipe

/-- The link set that is made. -/
def links : Recipe → LinkSet
  | empty => .empty
  | insert r s d => r.links.insert s d
  | insertBelow r t u a b => r.links.insertMany (t.overlay u a b)
  | insertMany r ls => r.links.insertMany ls
  | union r q => r.links.union q.links

/-- The same with four indexes. -/
def indexes : Recipe → Indexes
  | empty => .empty
  | insert r s d => r.indexes.insert s d
  | insertBelow r t u a b => r.indexes.insertBelow t u [(a, b)]
  | insertMany r ls => r.indexes.insertMany ls
  | union r q => r.indexes.union q.indexes

theorem wellFormed (r : Recipe) : r.links.WellFormed := by
  induction r with
  | empty => exact wellFormed_empty
  | insert r s d ih => exact ih.insert s d
  | insertBelow r t u a b ih => exact ih.insertMany _
  | insertMany r ls ih => exact ih.insertMany ls
  | union r q ihr _ => exact ihr.union _

theorem agrees (r : Recipe) : r.indexes.Agrees r.links := by
  induction r with
  | empty => exact Indexes.agrees_empty
  | insert r s d ih => exact ih.insert s d
  | insertBelow r t u a b ih => exact ih.insertBelow t u a b
  | insertMany r ls ih => exact ih.insertMany ls
  | union r q ihr ihq => exact ihr.union ihq

end Recipe

/-- However a link set is made, no link is kept twice, the counterparts of a node are read off the links in
their order, and the four indexes answer every question in the same way. Operations only append links.
Union appends those that are new, and up to the order of links it is commutative, associative and
idempotent with the empty set as identity. -/
theorem recipe_laws :
    (∀ r : Recipe, r.indexes.Agrees r.links ∧ r.links.pairs.Nodup ∧
      (∀ s d, r.links.contains s d = true ↔ (s, d) ∈ r.links.pairs) ∧
      (∀ s, r.links.targets s = (r.links.pairs.filter fun l => l.1 == s).map Prod.snd) ∧
      (∀ d, r.links.sources d = (r.links.pairs.filter fun l => l.2 == d).map Prod.fst) ∧
      (∀ s, r.links.hasSource s = true ↔ r.links.targets s ≠ []) ∧
      ∀ d, r.links.hasTarget d = true ↔ r.links.sources d ≠ []) ∧
    (∀ r : Recipe,
      (∀ s d, r.links.pairs <+: (r.insert s d).links.pairs) ∧
      (∀ t u a b, r.links.pairs <+: (r.insertBelow t u a b).links.pairs) ∧
      (∀ ls, r.links.pairs <+: (r.insertMany ls).links.pairs) ∧
      ∀ q : Recipe, (r.union q).links.pairs =
        r.links.pairs ++ q.links.pairs.filter fun l => decide (l ∉ r.links.pairs)) ∧
    (∀ r q : Recipe, r.indexes.sameRelation q.indexes = r.links.sameRelation q.links) ∧
    ∀ r q p : Recipe,
      (r.union q).links.sameRelation (q.union r).links = true ∧
      ((r.union q).union p).links.sameRelation (r.union (q.union p)).links = true ∧
      (r.union r).links.sameRelation r.links = true ∧
      (r.union .empty).links.sameRelation r.links = true ∧
      (Recipe.empty.union r).links.sameRelation r.links = true := by
  refine ⟨fun r => ?_, fun r => ⟨?_, ?_, ?_, ?_⟩, fun r q => ?_, fun r q p => ?_⟩
  · have hwf := r.wellFormed
    refine ⟨r.agrees, hwf.nodup, fun s d => hwf.contains_iff, hwf.targets_eq, hwf.sources_eq, ?_, ?_⟩
    · simp [hasSource]
    · simp [hasTarget]
  · exact r.links.pairs_prefix_insert
  · exact fun t u a b => r.links.pairs_prefix_insertMany _
  · exact r.links.pairs_prefix_insertMany
  · exact fun q => r.wellFormed.pairs_union q.wellFormed
  · exact r.agrees.sameRelation_eq q.agrees r.wellFormed q.wellFormed
  · have hmem : ∀ {r q : Recipe} {l : Link},
        l ∈ (r.union q).links.pairs ↔ l ∈ r.links.pairs ∨ l ∈ q.links.pairs :=
      fun {r q l} => r.wellFormed.mem_union
    have hsame : ∀ {r q : Recipe}, (∀ l, l ∈ r.links.pairs ↔ l ∈ q.links.pairs) →
        r.links.sameRelation q.links = true :=
      fun {r q} => (r.wellFormed.sameRelation_iff q.wellFormed).2
    refine ⟨hsame fun l => ?_, hsame fun l => ?_, hsame fun l => ?_, hsame fun l => ?_, hsame fun l => ?_⟩
    · rw [hmem, hmem, or_comm]
    · rw [hmem, hmem, hmem, hmem, or_assoc]
    · rw [hmem, or_self]
    · rw [hmem, Recipe.links, pairs_empty, or_iff_left List.not_mem_nil]
    · rw [hmem, Recipe.links, pairs_empty, or_iff_right List.not_mem_nil]

end LinkSet

end Counterpart
