import Counterpart.Proofs.Tree.Comparison
import Counterpart.Proofs.Tree.Positions
import Mathlib.Data.Set.Card
import Mathlib.Data.Set.Function

/-!
# Paths

A path is a list of positions: at each node it says which child to go to. `Tree.nodeAt? t n path` is the node
at its end. The nodes at and below `n` are those at the ends of the paths from `n`, each at the end of one
(`mem_descendants_iff_path`, `path_unique`). Two terms are the same in some view of their atoms if and only if
the same paths lead somewhere on both sides and the atoms there are the same in that view
(`map_term_eq_iff_paths`). An overlay joins the ends of every path that exists on both sides
(`mem_overlay_iff_path`); between subtrees of the same shape it is a bijection.
-/

namespace Counterpart.Tree

variable {t u : Tree} {n m a b : Nat} {l : Link}

/-- The node at the end of a path from `n`, if the path exists. -/
def nodeAt? (t : Tree) (n : Nat) : List Nat → Option Nat
  | [] => some n
  | i :: path => (t.child? n i).bind fun c => t.nodeAt? c path

theorem nodeAt?_cons (t : Tree) (n i : Nat) (path : List Nat) :
    t.nodeAt? n (i :: path) = (t.child? n i).bind fun c => t.nodeAt? c path := rfl

theorem nodeAt?_singleton (t : Tree) (n i : Nat) : t.nodeAt? n [i] = t.child? n i :=
  Option.bind_fun_some _

theorem nodeAt?_cons_eq_some_iff {i : Nat} {path : List Nat} :
    t.nodeAt? n (i :: path) = some m ↔ ∃ c, t.child? n i = some c ∧ t.nodeAt? c path = some m := by
  rw [nodeAt?_cons, Option.bind_eq_some_iff]

/-! ### The nodes of a subtree -/

theorem mem_descendants_of_path {path : List Nat} (h : t.nodeAt? n path = some m) :
    m ∈ t.descendants n := by
  induction path generalizing n with
  | nil =>
    obtain rfl := Option.some.inj h
    exact self_mem_descendants t n
  | cons i path ih =>
    obtain ⟨c, hc, hpath⟩ := nodeAt?_cons_eq_some_iff.1 h
    exact mem_descendants_iff.2 (.inr ⟨c, List.mem_of_getElem? hc, ih hpath⟩)

/-- The nodes at and below `n` are the ends of the paths from `n`. -/
theorem mem_descendants_iff_path : m ∈ t.descendants n ↔ ∃ path, t.nodeAt? n path = some m := by
  refine ⟨fun h => ?_, fun ⟨path, hpath⟩ => mem_descendants_of_path hpath⟩
  induction n using children_induction (t := t) with
  | step n ih =>
    rcases mem_descendants_iff.1 h with rfl | ⟨c, hc, hm⟩
    · exact ⟨[], rfl⟩
    · obtain ⟨i, hi⟩ := List.mem_iff_getElem?.1 hc
      obtain ⟨path, hpath⟩ := ih c hc hm
      exact ⟨i :: path, nodeAt?_cons_eq_some_iff.2 ⟨c, hi, hpath⟩⟩

/-- A path with a step leads away from where it begins. -/
theorem nodeAt?_cons_ne_self (t : Tree) (n i : Nat) (path : List Nat) :
    t.nodeAt? n (i :: path) ≠ some n := by
  intro h
  obtain ⟨c, hc, hpath⟩ := nodeAt?_cons_eq_some_iff.1 h
  have hlt := lt_of_parent (parent_of_child? hc)
  have hle := le_of_mem_descendants (mem_descendants_of_path hpath)
  omega

/-- No two paths from `n` lead to the same node. -/
theorem path_unique {path path' : List Nat} (h : t.nodeAt? n path = some m)
    (h' : t.nodeAt? n path' = some m) : path = path' := by
  induction path generalizing n path' with
  | nil =>
    obtain rfl := Option.some.inj h
    cases path' with
    | nil => rfl
    | cons i rest => exact absurd h' (nodeAt?_cons_ne_self t n i rest)
  | cons i rest ih =>
    cases path' with
    | nil =>
      obtain rfl := Option.some.inj h'
      exact absurd h (nodeAt?_cons_ne_self t n i rest)
    | cons j rest' =>
      obtain ⟨c, hc, hrest⟩ := nodeAt?_cons_eq_some_iff.1 h
      obtain ⟨d, hd, hrest'⟩ := nodeAt?_cons_eq_some_iff.1 h'
      obtain rfl : c = d :=
        eq_of_mem_descendants_children (parent_of_child? hc) (parent_of_child? hd)
          (mem_descendants_of_path hrest) (mem_descendants_of_path hrest')
      obtain rfl : i = j := (position_of_child? hc).symm.trans (position_of_child? hd)
      rw [ih hrest hrest']

/-! ### Terms by paths -/

theorem mem_zip_children_iff {c d : Nat} :
    (c, d) ∈ (t.children a).zip (u.children b) ↔ ∃ i, t.child? a i = some c ∧ u.child? b i = some d := by
  rw [List.mem_iff_getElem?]
  exact exists_congr fun i => List.getElem?_zip_eq_some

/-- Two terms are the same in some view if and only if every path leads to atoms that are the same in that
view, or nowhere on both sides. -/
theorem map_term_eq_iff_paths (view : Atom → Atom) :
    (t.term a).map view = (u.term b).map view ↔
      ∀ path, (t.nodeAt? a path).map (fun n => view (t.atom n)) =
        (u.nodeAt? b path).map fun n => view (u.atom n) := by
  constructor
  · intro h path
    induction path generalizing a b with
    | nil => exact congrArg some (map_term_eq_iff.1 h).1.1
    | cons i path ih =>
      obtain ⟨⟨-, hlen⟩, hchildren⟩ := map_term_eq_iff.1 h
      rw [nodeAt?_cons, nodeAt?_cons]
      cases hc : t.child? a i with
      | none =>
        have hd : u.child? b i = none := by
          rw [child?, List.getElem?_eq_none_iff] at hc ⊢
          omega
        rw [hd]
        rfl
      | some c =>
        have hi : i < (u.children b).length := hlen ▸ (List.getElem?_eq_some_iff.1 hc).1
        have hd : u.child? b i = some (u.children b)[i] := List.getElem?_eq_getElem hi
        rw [hd]
        exact ih (hchildren (c, _) (mem_zip_children_iff.2 ⟨i, hc, hd⟩))
  · intro h
    induction a using children_induction (t := t) generalizing b with
    | step a ih =>
      refine map_term_eq_iff.2 ⟨⟨Option.some.inj (h []), ?_⟩, ?_⟩
      · -- paths of one step tell how many children there are
        have hstep : ∀ i, (t.children a).length ≤ i ↔ (u.children b).length ≤ i := by
          intro i
          have hi := h [i]
          rw [nodeAt?_singleton, nodeAt?_singleton] at hi
          rw [← List.getElem?_eq_none_iff, ← List.getElem?_eq_none_iff]
          show t.child? a i = none ↔ u.child? b i = none
          rw [← Option.map_eq_none_iff, hi, Option.map_eq_none_iff]
        exact Nat.le_antisymm ((hstep _).2 (Nat.le_refl _)) ((hstep _).1 (Nat.le_refl _))
      · rintro ⟨c, d⟩ hcd
        obtain ⟨i, hc, hd⟩ := mem_zip_children_iff.1 hcd
        refine ih c (List.of_mem_zip hcd).1 fun path => ?_
        have hpath := h (i :: path)
        rwa [nodeAt?_cons, nodeAt?_cons, hc, hd] at hpath

theorem outline_eq_iff_paths :
    Term.outline (t.term a) = Term.outline (u.term b) ↔
      ∀ path, (t.nodeAt? a path).map (fun n => (t.atom n).outline) =
        (u.nodeAt? b path).map fun n => (u.atom n).outline :=
  map_term_eq_iff_paths Atom.outline

theorem term_eq_iff_paths :
    t.term a = u.term b ↔ ∀ path, (t.nodeAt? a path).map t.atom = (u.nodeAt? b path).map u.atom := by
  rw [← map_term_eq_iff_paths fun x => x, Rose.map_same, Rose.map_same]

/-! ### Overlays by paths -/

/-- The pairs of nodes at the ends of the paths that exist on both sides. -/
def pathLinks (t u : Tree) (a b : Nat) : Set Link :=
  {l | ∃ path, t.nodeAt? a path = some l.1 ∧ u.nodeAt? b path = some l.2}

theorem mem_overlay_iff_path : l ∈ t.overlay u a b ↔ l ∈ pathLinks t u a b := by
  induction a using children_induction (t := t) generalizing b with
  | step a ih =>
    rw [mem_overlay_iff]
    constructor
    · rintro (rfl | ⟨⟨c, d⟩, hcd, hl⟩)
      · exact ⟨[], rfl, rfl⟩
      · obtain ⟨i, hc, hd⟩ := mem_zip_children_iff.1 hcd
        obtain ⟨path, hpath, hpath'⟩ := (ih c (List.of_mem_zip hcd).1).1 hl
        exact ⟨i :: path, nodeAt?_cons_eq_some_iff.2 ⟨c, hc, hpath⟩,
          nodeAt?_cons_eq_some_iff.2 ⟨d, hd, hpath'⟩⟩
    · rintro ⟨path, hpath, hpath'⟩
      cases path with
      | nil => exact .inl (Prod.ext (Option.some.inj hpath).symm (Option.some.inj hpath').symm)
      | cons i path =>
        obtain ⟨c, hc, hpath⟩ := nodeAt?_cons_eq_some_iff.1 hpath
        obtain ⟨d, hd, hpath'⟩ := nodeAt?_cons_eq_some_iff.1 hpath'
        have hcd := mem_zip_children_iff.2 ⟨i, hc, hd⟩
        exact .inr ⟨(c, d), hcd, (ih c (List.of_mem_zip hcd).1).2 ⟨path, hpath, hpath'⟩⟩

theorem bijOn_swap_pathLinks (t u : Tree) (a b : Nat) :
    Set.BijOn Prod.swap (pathLinks t u a b) (pathLinks u t b a) := by
  refine ⟨?_, Prod.swap_injective.injOn, ?_⟩
  · rintro l ⟨path, hpath, hpath'⟩
    exact ⟨path, hpath', hpath⟩
  · rintro l ⟨path, hpath, hpath'⟩
    exact ⟨l.swap, ⟨path, hpath', hpath⟩, rfl⟩

/-- Only children of the two tops are joined to children of the tops. -/
theorem mem_children_iff_of_mem_pathLinks (hl : l ∈ pathLinks t u a b) :
    l.1 ∈ t.children a ↔ l.2 ∈ u.children b := by
  have hchild : ∀ {t u : Tree} {a b : Nat} {l : Link}, l ∈ pathLinks t u a b →
      l.1 ∈ t.children a → l.2 ∈ u.children b := by
    rintro t u a b l ⟨path, hpath, hpath'⟩ h
    obtain ⟨i, hi⟩ := List.mem_iff_getElem?.1 h
    obtain rfl : path = [i] := path_unique hpath ((nodeAt?_singleton t a i).trans hi)
    rw [nodeAt?_singleton] at hpath'
    exact List.mem_of_getElem? hpath'
  exact ⟨hchild hl, hchild ((bijOn_swap_pathLinks t u a b).mapsTo hl)⟩

/-- An overlay holds no pair twice: the pairs of children lead into different subtrees. -/
theorem nodup_overlay (t u : Tree) (a b : Nat) : (t.overlay u a b).Nodup := by
  induction a using children_induction (t := t) generalizing b with
  | step a ih =>
    have hzip : ((t.children a).zip (u.children b)).reverse.Pairwise fun k l => k.1 ≠ l.1 := by
      have hfst := (nodup_children t a).sublist (map_fst_zip_sublist _ (u.children b))
      exact List.pairwise_reverse.2 ((List.pairwise_map.1 hfst).imp Ne.symm)
    have hchild : ∀ k ∈ ((t.children a).zip (u.children b)).reverse, k.1 ∈ t.children a :=
      fun k hk => (List.of_mem_zip (List.mem_reverse.1 hk)).1
    rw [overlay_eq, List.nodup_cons, List.nodup_flatMap]
    refine ⟨fun hmem => ?_, fun k hk => ih k.1 (hchild k hk) k.2, hzip.imp_of_mem fun {k l} hk hl hne => ?_⟩
    · obtain ⟨k, hk, hmem⟩ := List.mem_flatMap.1 hmem
      have hlt := lt_of_parent (mem_children.1 (hchild k hk))
      have hle := le_of_mem_descendants (linkWithin_of_mem_overlay hmem).1
      omega
    · intro e hek hel
      exact hne (eq_of_mem_descendants_children (mem_children.1 (hchild k hk))
        (mem_children.1 (hchild l hl)) (linkWithin_of_mem_overlay hek).1 (linkWithin_of_mem_overlay hel).1)

/-- There are as many common paths as the overlay has pairs. -/
theorem ncard_pathLinks (t u : Tree) (a b : Nat) :
    (pathLinks t u a b).ncard = (t.overlay u a b).length := by
  have hset : pathLinks t u a b = ((t.overlay u a b).toFinset : Set Link) := by
    ext l
    rw [List.coe_toFinset]
    exact mem_overlay_iff_path.symm
  rw [hset, Set.ncard_coe_finset, List.toFinset_card_of_nodup (nodup_overlay t u a b)]

/-! ### Subtrees with the same paths -/

/-- Every path that exists on one side exists on the other. -/
def SamePaths (t u : Tree) (a b : Nat) : Prop :=
  ∀ path, (t.nodeAt? a path).isSome = (u.nodeAt? b path).isSome

theorem SamePaths.symm (h : SamePaths t u a b) : SamePaths u t b a :=
  fun path => (h path).symm

/-- To compare what a path leads to, it is enough to compare its ends. -/
theorem SamePaths.map_nodeAt?_eq {α : Type} (h : SamePaths t u a b) {f g : Nat → α} {path : List Nat}
    (hends : ∀ m n, t.nodeAt? a path = some m → u.nodeAt? b path = some n → f m = g n) :
    (t.nodeAt? a path).map f = (u.nodeAt? b path).map g := by
  have hpath := h path
  cases hm : t.nodeAt? a path with
  | none =>
    rw [hm] at hpath
    rw [Option.isSome_eq_false_iff.1 hpath.symm |> Option.isNone_iff_eq_none.1]
    rfl
  | some m =>
    rw [hm] at hpath
    obtain ⟨n, hn⟩ := Option.isSome_iff_exists.1 hpath.symm
    rw [hn, Option.map_some, Option.map_some, hends m n hm hn]

theorem samePaths_of_outline_eq (h : Term.outline (t.term a) = Term.outline (u.term b)) :
    SamePaths t u a b := by
  intro path
  have hpath := congrArg Option.isSome (outline_eq_iff_paths.1 h path)
  rwa [Option.isSome_map, Option.isSome_map] at hpath

/-- In subtrees of the same shape the ends of a path have the same outline. -/
theorem outline_eq_of_mem_pathLinks (h : Term.outline (t.term a) = Term.outline (u.term b))
    (hl : l ∈ pathLinks t u a b) : (t.atom l.1).outline = (u.atom l.2).outline := by
  obtain ⟨path, hpath, hpath'⟩ := hl
  have hview := outline_eq_iff_paths.1 h path
  rw [hpath, hpath'] at hview
  exact Option.some.inj hview

/-- With the same paths on both sides, every node of the source subtree is joined to exactly one node. -/
theorem SamePaths.bijOn_fst (h : SamePaths t u a b) :
    Set.BijOn Prod.fst (pathLinks t u a b) {n | n ∈ t.descendants a} := by
  refine ⟨?_, ?_, ?_⟩
  · rintro l ⟨path, hpath, -⟩
    exact mem_descendants_of_path hpath
  · rintro k ⟨path, hk, hk'⟩ l ⟨path', hl, hl'⟩ heq
    obtain rfl : path = path' := path_unique hk (heq ▸ hl)
    exact Prod.ext heq (Option.some.inj (hk'.symm.trans hl'))
  · intro n hn
    obtain ⟨path, hpath⟩ := mem_descendants_iff_path.1 hn
    have hsome : (u.nodeAt? b path).isSome = true := by rw [← h path, hpath]; rfl
    obtain ⟨m, hm⟩ := Option.isSome_iff_exists.1 hsome
    exact ⟨(n, m), ⟨path, hpath, hm⟩, rfl⟩

theorem SamePaths.bijOn_snd (h : SamePaths t u a b) :
    Set.BijOn Prod.snd (pathLinks t u a b) {n | n ∈ u.descendants b} :=
  h.symm.bijOn_fst.comp (bijOn_swap_pathLinks t u a b)

theorem SamePaths.ncard_pathLinks (h : SamePaths t u a b) :
    (pathLinks t u a b).ncard = (t.descendants a).length := by
  have hset : {n | n ∈ t.descendants a} = ((t.descendants a).toFinset : Set Nat) :=
    (List.coe_toFinset _).symm
  rw [← h.bijOn_fst.injOn.ncard_image, h.bijOn_fst.image_eq, hset, Set.ncard_coe_finset,
    List.toFinset_card_of_nodup (nodup_descendants t a)]

end Counterpart.Tree
