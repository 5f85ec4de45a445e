import Counterpart.Proofs.LinkSet.Indexes
import Counterpart.Proofs.Tree.History
import Counterpart.Proofs.Tree.Paths

/-!
# Linking two subtrees along a stack

To link two subtrees position by position, a stack holds the pairs that are still to be linked. In a round the
pair on top is linked and the pairs of its children are put on the stack (`Indexes.round`). What a stack stands
for is the list of all pairs that will be linked because of it (`Indexes.planned`): a round links the first of
them and leaves the others (`Indexes.round_planned`). So the stack is empty after as many rounds as there are
paths on both sides, and the set then holds exactly the ends of these paths in addition to what it held
(`insertBelow_exact`).
-/

namespace Counterpart.LinkSet

open Counterpart.Tree

variable {t u : Tree}

namespace Indexes

/-- Link the pair on top of the stack and put the pairs of its children in its place, the last one on top. An
empty stack stays empty. -/
def round (t u : Tree) : Indexes × List Link → Indexes × List Link
  | (i, []) => (i, [])
  | (i, (s, d) :: stack) => (i.insert s d, ((t.children s).zip (u.children d)).reverse ++ stack)

/-- The pairs that will be linked because of a stack, in the order in which they will be. -/
def planned (t u : Tree) (stack : List Link) : List Link :=
  stack.flatMap fun l => t.overlay u l.1 l.2

theorem planned_singleton (t u : Tree) (a b : Nat) : planned t u [(a, b)] = t.overlay u a b :=
  List.flatMap_singleton ..

theorem planned_cons (t u : Tree) (s d : Nat) (stack : List Link) :
    planned t u ((s, d) :: stack) =
      (s, d) :: planned t u (((t.children s).zip (u.children d)).reverse ++ stack) := by
  rw [planned, List.flatMap_cons, overlay_eq, planned, List.flatMap_append, List.cons_append]

theorem planned_eq_nil_iff {stack : List Link} : planned t u stack = [] ↔ stack = [] := by
  cases stack with
  | nil => exact iff_of_true rfl rfl
  | cons l stack => simp [planned_cons t u l.1 l.2 stack]

/-- A round links the first of the planned pairs and leaves the others. -/
theorem round_planned (i : Indexes) (stack : List Link) :
    (round t u (i, stack)).1 = i.insertMany ((planned t u stack).take 1) ∧
      planned t u (round t u (i, stack)).2 = (planned t u stack).drop 1 := by
  cases stack with
  | nil => exact ⟨rfl, rfl⟩
  | cons l stack =>
    obtain ⟨s, d⟩ := l
    rw [planned_cons]
    exact ⟨rfl, rfl⟩

theorem insertMany_append (i : Indexes) (ls ms : List Link) :
    i.insertMany (ls ++ ms) = (i.insertMany ls).insertMany ms :=
  List.foldl_append

/-- After `n` rounds the first `n` planned pairs are linked and the others are still planned. -/
theorem iterate_round_planned (n : Nat) (i : Indexes) (stack : List Link) :
    ((round t u)^[n] (i, stack)).1 = i.insertMany ((planned t u stack).take n) ∧
      planned t u ((round t u)^[n] (i, stack)).2 = (planned t u stack).drop n := by
  induction n with
  | zero => exact ⟨rfl, rfl⟩
  | succ n ih =>
    obtain ⟨hlinked, hleft⟩ := ih
    rw [Function.iterate_succ_apply']
    obtain ⟨hlinked', hleft'⟩ := round_planned (t := t) (u := u) ((round t u)^[n] (i, stack)).1
      ((round t u)^[n] (i, stack)).2
    refine ⟨?_, ?_⟩
    · rw [hlinked', hlinked, hleft, ← insertMany_append, List.take_add]
    · rw [hleft', hleft, List.drop_drop]

/-- The stack of one pair is empty once there were as many rounds as there are common paths. -/
theorem iterate_round_stack_eq_nil_iff (i : Indexes) (a b n : Nat) :
    ((round t u)^[n] (i, [(a, b)])).2 = [] ↔ (pathLinks t u a b).ncard ≤ n := by
  rw [← planned_eq_nil_iff (t := t) (u := u), (iterate_round_planned n i [(a, b)]).2, planned_singleton,
    List.drop_eq_nil_iff, ncard_pathLinks]

theorem iterate_round_eq_insertBelow (i : Indexes) (a b : Nat) :
    ((round t u)^[(pathLinks t u a b).ncard] (i, [(a, b)])).1 = i.insertBelow t u [(a, b)] := by
  rw [(iterate_round_planned _ i [(a, b)]).1, insertBelow_eq, ncard_pathLinks, planned_singleton,
    List.take_length, List.flatMap_singleton]

end Indexes

/-- Linking two subtrees position by position ends: the stack is empty after as many rounds as there are paths
on both sides, and not before. The set then holds what it held and the ends of these paths. If the subtrees
have the same shape, every node of either one is the end of exactly one of the paths, the two ends of a path
are of the same kind, and in a finished tree the size of the subtree is the number of pairs. -/
theorem insertBelow_exact (r : Recipe) (t u : Tree) (a b : Nat) :
    ((∀ n, ((Indexes.round t u)^[n] (r.indexes, [(a, b)])).2 = [] ↔ (pathLinks t u a b).ncard ≤ n) ∧
      ((Indexes.round t u)^[(pathLinks t u a b).ncard] (r.indexes, [(a, b)])).1.Agrees
        (r.insertBelow t u a b).links) ∧
    (∀ l, l ∈ (r.insertBelow t u a b).links.pairs ↔ l ∈ r.links.pairs ∨ l ∈ pathLinks t u a b) ∧
    (t.isSameShape a u b = true →
      Set.BijOn Prod.fst (pathLinks t u a b) {n | n ∈ t.descendants a} ∧
      Set.BijOn Prod.snd (pathLinks t u a b) {n | n ∈ u.descendants b} ∧
      (∀ l ∈ pathLinks t u a b, t.kind l.1 = u.kind l.2) ∧
      (t.IsFinished → (pathLinks t u a b).ncard = t.size a)) := by
  refine ⟨⟨Indexes.iterate_round_stack_eq_nil_iff r.indexes a b, ?_⟩, fun l => ?_, fun hshape => ?_⟩
  · rw [Indexes.iterate_round_eq_insertBelow]
    exact (r.insertBelow t u a b).agrees
  · rw [Recipe.links, r.wellFormed.mem_insertMany, mem_overlay_iff_path]
  · have houtline := outline_eq_of_isSameShape hshape
    have hpaths := samePaths_of_outline_eq houtline
    refine ⟨hpaths.bijOn_fst, hpaths.bijOn_snd, fun l hl => ?_, fun hfinished => ?_⟩
    · exact (Atom.outline_eq_iff.1 (outline_eq_of_mem_pathLinks houtline hl)).1
    · rw [hpaths.ncard_pathLinks, hfinished.size_eq_length]

/-- A parameter with annotations after its name. -/
def annotatedParameter (name : String) (annotations : List String) : Tree :=
  (annotations.foldl (fun t x => t.addChild 0 ⟨Kind.markerAnnotation, some x⟩ ⟨0, 9⟩)
    (((single ⟨Kind.singleVariableDeclaration, none⟩ ⟨0, 9⟩).addChild 0 ⟨Kind.primitiveType, some "long"⟩
      ⟨0, 4⟩).addChild 0 ⟨Kind.simpleName, some name⟩ ⟨5, 9⟩)).finish

/-- Two parameters of the same shape are linked as a whole, in three rounds; a child that only one side has is
left out, and a link that was there stays. -/
theorem parameters_overlaid :
    let millis := annotatedParameter "millis" []
    let duration := annotatedParameter "duration" []
    let unused := annotatedParameter "duration" ["Unused"]
    let known := Recipe.empty.insert 1 2
    (millis.isSameShape 0 duration 0 = true ∧ millis.IsFinished ∧
      ((Indexes.round millis duration)^[3] (known.indexes, [(0, 0)])).2 = [] ∧
      (1, 2) ∈ (known.insertBelow millis duration 0 0).links.pairs ∧
      (2, 2) ∈ (known.insertBelow millis duration 0 0).links.pairs) ∧
    millis.isSameShape 0 unused 0 = false ∧
      (2, 2) ∈ (known.insertBelow millis unused 0 0).links.pairs ∧
      (2, 3) ∉ (known.insertBelow millis unused 0 0).links.pairs := by
  intro millis duration unused known
  have hshape : millis.isSameShape 0 duration 0 = true := by decide +kernel
  have hfinished : millis.IsFinished := ⟨_, rfl⟩
  obtain ⟨⟨hends, -⟩, hpairs, hsame⟩ := insertBelow_exact known millis duration 0 0
  obtain ⟨-, hpairs', -⟩ := insertBelow_exact known millis unused 0 0
  obtain ⟨-, -, -, hcard⟩ := hsame hshape
  refine ⟨⟨hshape, hfinished, ?_, ?_, ?_⟩, by decide +kernel, ?_, ?_⟩
  · rw [hends, hcard hfinished]
    decide +kernel
  · exact (hpairs (1, 2)).2 (.inl (by decide +kernel))
  · exact (hpairs (2, 2)).2 (.inr ⟨[1], by decide +kernel, by decide +kernel⟩)
  · exact (hpairs' (2, 2)).2 (.inr ⟨[1], by decide +kernel, by decide +kernel⟩)
  · rw [hpairs', ← mem_overlay_iff_path]
    decide +kernel

end Counterpart.LinkSet
