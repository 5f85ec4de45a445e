import Counterpart.Proofs.Tree.Finished
import Mathlib.Data.List.Nodup

/-!
# Positions

Every node of a subtree stands at one place of its pre-order (`nodup_descendants`), after its parent
(`parent_mem_before`). Two subtrees with equal terms have the same places, so their overlay joins the
`i`-th node of one pre-order to the `i`-th node of the other (`mem_overlay_iff_mem_zip`). It is a bijection
that goes along with parents, children and positions among siblings (`mem_zip_children_of_mem_overlay`).
-/

namespace Counterpart

/-- In two trees that agree under some view of their values, the walk over the overlay is the overlay of
the walks. -/
theorem Rose.preOrder_zip {α β γ : Type} {f : α → γ} {g : β → γ} (r : Rose α) :
    ∀ s : Rose β, r.map f = s.map g →
      (r.zip s).preOrder = r.preOrder.zip s.preOrder ∧ r.preOrder.length = s.preOrder.length := by
  induction r using Rose.ind with
  | node a cs ih =>
    have hlists : ∀ ds : List (Rose β), cs.map (map f) = ds.map (map g) →
        ((List.zipWith zip cs ds).map preOrder).flatten =
            (cs.map preOrder).flatten.zip (ds.map preOrder).flatten ∧
          (cs.map preOrder).flatten.length = (ds.map preOrder).flatten.length := by
      induction cs with
      | nil =>
        intro ds h
        cases ds with
        | nil => exact ⟨rfl, rfl⟩
        | cons d ds => simp at h
      | cons c cs ihcs =>
        intro ds h
        cases ds with
        | nil => simp at h
        | cons d ds =>
          rw [List.map_cons, List.map_cons, List.cons.injEq] at h
          obtain ⟨hzip, hlen⟩ := ih c List.mem_cons_self d h.1
          obtain ⟨hzips, hlens⟩ := ihcs (fun x hx => ih x (List.mem_cons_of_mem c hx)) ds h.2
          refine ⟨?_, ?_⟩
          · rw [List.zipWith_cons_cons, List.map_cons, List.flatten_cons, hzip, hzips, List.map_cons,
              List.map_cons, List.flatten_cons, List.flatten_cons, List.zip_append hlen]
          · rw [List.map_cons, List.map_cons, List.flatten_cons, List.flatten_cons,
              List.length_append, List.length_append, hlen, hlens]
    rintro ⟨b, ds⟩ h
    rw [map_node, map_node, node.injEq] at h
    obtain ⟨hzips, hlens⟩ := hlists ds h.2
    rw [zip_node, preOrder_node, preOrder_node, preOrder_node, hzips]
    exact ⟨rfl, congrArg Nat.succ hlens⟩

theorem map_fst_zip_sublist {α β : Type} (xs : List α) (ys : List β) :
    ((xs.zip ys).map Prod.fst).Sublist xs := by
  rw [List.zip_eq_zip_take_min, List.map_fst_zip (by simp)]
  exact List.take_sublist _ _

theorem map_snd_zip_sublist {α β : Type} (xs : List α) (ys : List β) :
    ((xs.zip ys).map Prod.snd).Sublist ys := by
  rw [List.zip_eq_zip_take_min, List.map_snd_zip (by simp)]
  exact List.take_sublist _ _

/-- In lists without repetitions a place is known by either of its entries. -/
theorem eq_iff_of_mem_zip {α β : Type} {xs : List α} {ys : List β} (hxs : xs.Nodup) (hys : ys.Nodup)
    {k l : α × β} (hk : k ∈ xs.zip ys) (hl : l ∈ xs.zip ys) : k.1 = l.1 ↔ k.2 = l.2 := by
  obtain ⟨i, hi, rfl⟩ := List.mem_iff_getElem.1 hk
  obtain ⟨j, hj, rfl⟩ := List.mem_iff_getElem.1 hl
  rw [List.getElem_zip, List.getElem_zip, hxs.getElem_inj_iff, hys.getElem_inj_iff]

namespace Tree

variable {t u : Tree} {a b : Nat}

/-! ### Each node once -/

/-- Going up: a node lies at or below `n` if it is `n` or its parent does. -/
theorem mem_descendants_iff_parent {n m : Nat} :
    m ∈ t.descendants n ↔ m = n ∨ ∃ p, t.parent m = some p ∧ p ∈ t.descendants n := by
  constructor
  · intro h
    induction n using children_induction (t := t) with
    | step n ih =>
      rcases mem_descendants_iff.1 h with rfl | ⟨c, hc, hm⟩
      · exact .inl rfl
      right
      rcases ih c hc hm with rfl | ⟨p, hp, hpc⟩
      · exact ⟨n, mem_children.1 hc, self_mem_descendants t n⟩
      · exact ⟨p, hp, mem_descendants_trans (mem_descendants_of_child hc) hpc⟩
  · rintro (rfl | ⟨p, hp, hpn⟩)
    · exact self_mem_descendants t m
    · exact mem_descendants_trans hpn (mem_descendants_of_child (mem_children.2 hp))

/-- The subtrees of two children have no node in common. -/
theorem eq_of_mem_descendants_children {n c d m : Nat} (hc : t.parent c = some n)
    (hd : t.parent d = some n) (hmc : m ∈ t.descendants c) (hmd : m ∈ t.descendants d) : c = d := by
  -- no child has its own parent below it
  have habove : ∀ x, t.parent x = some n → n ∉ t.descendants x := by
    intro x hx hn
    have := lt_of_parent hx
    have := le_of_mem_descendants hn
    omega
  induction m using Nat.strongRecOn with
  | ind m ih =>
    rcases mem_descendants_iff_parent.1 hmc with rfl | ⟨p, hp, hpc⟩
    · rcases mem_descendants_iff_parent.1 hmd with rfl | ⟨q, hq, hqd⟩
      · rfl
      · obtain rfl := Option.some.inj (hc.symm.trans hq)
        exact absurd hqd (habove d hd)
    · rcases mem_descendants_iff_parent.1 hmd with rfl | ⟨q, hq, hqd⟩
      · obtain rfl := Option.some.inj (hd.symm.trans hp)
        exact absurd hpc (habove c hc)
      · obtain rfl := Option.some.inj (hp.symm.trans hq)
        exact ih p (lt_of_parent hp) hpc hqd

theorem nodup_descendants (t : Tree) (n : Nat) : (t.descendants n).Nodup := by
  induction n using children_induction (t := t) with
  | step n ih =>
    rw [descendants_eq, List.nodup_cons, ← strictDescendants_eq]
    refine ⟨not_mem_strictDescendants_self t n, ?_⟩
    rw [strictDescendants_eq, List.nodup_flatMap]
    refine ⟨ih, (nodup_children t n).imp_of_mem fun {c d} hc hd hne => ?_⟩
    intro m hmc hmd
    exact hne (eq_of_mem_descendants_children (mem_children.1 hc) (mem_children.1 hd) hmc hmd)

theorem mem_ancestors_iff {n m : Nat} : n ∈ t.ancestors m ↔ m ∈ t.descendants n := by
  induction m using Nat.strongRecOn with
  | ind m ih =>
    rw [ancestors_eq, List.mem_cons, mem_descendants_iff_parent, @eq_comm _ n]
    cases hp : t.parent m with
    | none => simp
    | some p =>
      have hup := ih p (lt_of_parent hp)
      simp [hup]

theorem isWithin_iff {n m : Nat} : t.isWithin m n = true ↔ m ∈ t.descendants n := by
  rw [isWithin, List.contains_iff_mem, mem_ancestors_iff]

/-- In pre-order no node stands before its parent. -/
theorem pairwise_descendants (t : Tree) (n : Nat) :
    (t.descendants n).Pairwise fun x y => t.parent x ≠ some y := by
  induction n using children_induction (t := t) with
  | step n ih =>
    rw [descendants_eq, List.pairwise_cons, List.pairwise_flatMap]
    refine ⟨fun y hy hn => ?_, ih, (nodup_children t n).imp_of_mem fun {c d} hc hd hne => ?_⟩
    · obtain ⟨c, hc, hyc⟩ := List.mem_flatMap.1 hy
      have := lt_of_parent hn
      have := lt_of_parent (mem_children.1 hc)
      have := le_of_mem_descendants hyc
      omega
    · intro x hx y hy hp
      have hxd : x ∈ t.descendants d := mem_descendants_iff_parent.2 (.inr ⟨y, hp, hy⟩)
      exact hne (eq_of_mem_descendants_children (mem_children.1 hc) (mem_children.1 hd) hx hxd)

/-- In pre-order the parent of every node but the first stands before it, and only there. -/
theorem parent_mem_before {n x p : Nat} {before after : List Nat}
    (h : t.descendants n = before ++ x :: after) (hx : x ≠ n) (hp : t.parent x = some p) :
    p ∈ before ∧ p ∉ x :: after := by
  have horder := pairwise_descendants t n
  rw [h, List.pairwise_append, List.pairwise_cons] at horder
  have hnot : p ∉ x :: after := by
    intro hmem
    rcases List.mem_cons.1 hmem with rfl | hmem
    · exact absurd (lt_of_parent hp) (Nat.lt_irrefl p)
    · exact horder.2.1.1 p hmem hp
  have hpn : p ∈ t.descendants n := by
    have hxn : x ∈ t.descendants n := by simp [h]
    rcases mem_descendants_iff_parent.1 hxn with rfl | ⟨q, hq, hqn⟩
    · exact absurd rfl hx
    · obtain rfl := Option.some.inj (hp.symm.trans hq)
      exact hqn
  rw [h, List.mem_append] at hpn
  exact ⟨hpn.resolve_right hnot, hnot⟩

/-- The position of a node is its place in the list of its siblings. -/
theorem position_eq_idxOf {n p : Nat} (h : t.parent n = some p) :
    t.position n = (t.children p).idxOf n := by
  rw [position, h]

theorem position_injOn_children {p c d : Nat} (hc : c ∈ t.children p) (hd : d ∈ t.children p)
    (h : t.position c = t.position d) : c = d := by
  rw [position_eq_idxOf (mem_children.1 hc), position_eq_idxOf (mem_children.1 hd)] at h
  exact (List.idxOf_inj hc).1 h

theorem parent_of_child? {n i c : Nat} (h : t.child? n i = some c) : t.parent c = some n :=
  mem_children.1 (List.mem_of_getElem? h)

theorem position_of_child? {n i c : Nat} (h : t.child? n i = some c) : t.position c = i := by
  rw [child?] at h
  obtain ⟨hi, rfl⟩ := List.getElem?_eq_some_iff.1 h
  rw [position_eq_idxOf (parent_of_child? (List.getElem?_eq_some_iff.2 ⟨hi, rfl⟩)),
    (nodup_children t n).idxOf_getElem i hi]

/-- The child at a position is the one that has the node as its parent and that position. -/
theorem child?_eq_some_iff {n i c : Nat} :
    t.child? n i = some c ↔ t.parent c = some n ∧ t.position c = i := by
  refine ⟨fun h => ⟨parent_of_child? h, position_of_child? h⟩, ?_⟩
  rintro ⟨hp, rfl⟩
  rw [child?, position_eq_idxOf hp]
  exact List.getElem?_idxOf (mem_children.2 hp)

/-! ### Overlays of equal terms -/

theorem mem_overlay_iff {l : Link} :
    l ∈ t.overlay u a b ↔
      l = (a, b) ∨ ∃ k ∈ (t.children a).zip (u.children b), l ∈ t.overlay u k.1 k.2 := by
  rw [overlay_eq, List.mem_cons, List.mem_flatMap]
  simp only [List.mem_reverse]

theorem self_mem_overlay (t u : Tree) (a b : Nat) : (a, b) ∈ t.overlay u a b :=
  mem_overlay_iff.2 (.inl rfl)

/-- An overlay goes on below each of its positions. -/
theorem mem_overlay_trans {k l : Link} (hk : k ∈ t.overlay u a b) (hl : l ∈ t.overlay u k.1 k.2) :
    l ∈ t.overlay u a b := by
  induction a using children_induction (t := t) generalizing b with
  | step a ih =>
    rcases mem_overlay_iff.1 hk with rfl | ⟨⟨c, d⟩, hcd, hk⟩
    · exact hl
    · exact mem_overlay_iff.2 (.inr ⟨(c, d), hcd, ih c (List.of_mem_zip hcd).1 hk⟩)

/-- The overlay of equal terms joins the two pre-orders place by place. -/
theorem mem_overlay_iff_mem_zip (h : t.term a = u.term b) {l : Link} :
    l ∈ t.overlay u a b ↔ l ∈ (t.descendants a).zip (u.descendants b) := by
  rw [← mem_preOrder_zip, (Rose.preOrder_zip _ _ h).1]
  rfl

theorem length_descendants_eq (h : t.term a = u.term b) :
    (t.descendants a).length = (u.descendants b).length :=
  (Rose.preOrder_zip _ _ h).2

theorem nodup_zip_descendants (h : t.term a = u.term b) :
    ((t.descendants a).zip (u.descendants b)).Nodup := by
  apply List.Nodup.of_map Prod.fst
  rw [List.map_fst_zip (Nat.le_of_eq (length_descendants_eq h))]
  exact nodup_descendants t a

theorem fst_eq_iff_snd_eq (h : t.term a = u.term b) {k l : Link} (hk : k ∈ t.overlay u a b)
    (hl : l ∈ t.overlay u a b) : k.1 = l.1 ↔ k.2 = l.2 :=
  eq_iff_of_mem_zip (nodup_descendants t a) (nodup_descendants u b)
    ((mem_overlay_iff_mem_zip h).1 hk) ((mem_overlay_iff_mem_zip h).1 hl)

/-- Every node of the source subtree has a counterpart. -/
theorem exists_mem_overlay (h : t.term a = u.term b) {x : Nat} (hx : x ∈ t.descendants a) :
    ∃ y, (x, y) ∈ t.overlay u a b := by
  obtain ⟨i, hi, rfl⟩ := List.mem_iff_getElem.1 hx
  have hi' : i < (u.descendants b).length := length_descendants_eq h ▸ hi
  refine ⟨(u.descendants b)[i], (mem_overlay_iff_mem_zip h).2 (List.mem_iff_getElem.2 ⟨i, ?_, ?_⟩)⟩
  · rw [List.length_zip]
    omega
  · rw [List.getElem_zip]

theorem length_children_eq (h : t.term a = u.term b) :
    (t.children a).length = (u.children b).length := by
  rw [term_eq, term_eq u, Rose.node.injEq] at h
  simpa using congrArg List.length h.2

theorem isLeaf_eq_of_term_eq (h : t.term a = u.term b) : t.isLeaf a = u.isLeaf b := by
  have hlen := length_children_eq h
  rw [isLeaf, isLeaf, Bool.eq_iff_iff, List.isEmpty_iff_length_eq_zero, List.isEmpty_iff_length_eq_zero,
    hlen]

theorem label_eq_of_term_eq (h : t.term a = u.term b) : t.label a = u.label b := by
  rw [term_eq, term_eq u, Rose.node.injEq] at h
  exact congrArg Atom.label h.1

/-- Counterparts whose parents are counterparts too have the same place among their siblings. -/
theorem mem_zip_children_of_mem_overlay (h : t.term a = u.term b) {x y p q : Nat}
    (hxy : (x, y) ∈ t.overlay u a b) (hpq : (p, q) ∈ t.overlay u a b) (hp : t.parent x = some p) :
    (x, y) ∈ (t.children p).zip (u.children q) := by
  obtain ⟨i, hi, rfl⟩ := List.mem_iff_getElem.1 (mem_children.2 hp)
  have hi' : i < (u.children q).length :=
    length_children_eq (term_eq_of_mem_overlay h hpq) ▸ hi
  have hmem : ((t.children p)[i], (u.children q)[i]) ∈ (t.children p).zip (u.children q) := by
    refine List.mem_iff_getElem.2 ⟨i, ?_, List.getElem_zip⟩
    rw [List.length_zip]
    omega
  -- the child of `q` at that place is a counterpart, and there is only one
  have hover : ((t.children p)[i], (u.children q)[i]) ∈ t.overlay u a b :=
    mem_overlay_trans hpq (mem_overlay_iff.2 (.inr ⟨_, hmem, self_mem_overlay ..⟩))
  obtain rfl := (fst_eq_iff_snd_eq h hxy hover).1 rfl
  exact hmem

theorem position_eq_of_mem_zip {p q x y : Nat} (h : (x, y) ∈ (t.children p).zip (u.children q)) :
    t.position x = u.position y := by
  obtain ⟨hx, hy⟩ := List.of_mem_zip h
  obtain ⟨i, hi, heq⟩ := List.mem_iff_getElem.1 h
  rw [List.getElem_zip, Prod.mk.injEq] at heq
  rw [List.length_zip, Nat.lt_min] at hi
  rw [position_eq_idxOf (mem_children.1 hx), position_eq_idxOf (mem_children.1 hy), ← heq.1, ← heq.2,
    (nodup_children t p).idxOf_getElem i hi.1, (nodup_children u q).idxOf_getElem i hi.2]

end Tree

end Counterpart
