import Counterpart.Proofs.Tree.Descent
import Counterpart.Tree.Finish
import Counterpart.Tree.Isomorphism

/-!
# Finished trees

After finishing, the stored values of every node are those of its term (`measures_finish`), whatever
was stored before. So in finished trees equal digests mean equal terms
(`IsFinished.term_eq_of_digest_eq`), across trees as well as within one, and the test for isomorphic subtrees
misses none (`IsFinished.isIsomorphic_iff`).
-/

namespace Counterpart

/-! ### Digests of terms -/

theorem Rose.map_injective {α β : Type} {f : α → β} (hf : ∀ a b, f a = f b → a = b) :
    ∀ r s : Rose α, r.map f = s.map f → r = s := by
  intro r
  induction r using Rose.ind with
  | node a cs ih =>
    have hcs : ∀ es : List (Rose α), cs.map (map f) = es.map (map f) → cs = es := by
      intro es
      induction cs generalizing es with
      | nil => cases es <;> simp
      | cons c cs ihcs =>
        cases es with
        | nil => simp
        | cons e es =>
          rw [List.map_cons, List.map_cons, List.cons.injEq]
          rintro ⟨hc, hrest⟩
          rw [ih c List.mem_cons_self e hc,
            ihcs (fun x hx => ih x (List.mem_cons_of_mem c hx)) es hrest]
    rintro ⟨b, ds⟩ h
    rw [map_node, map_node, node.injEq] at h
    rw [hf a b h.1, hcs ds h.2]

/-- The digest of a term is the term itself, with every position present. -/
theorem Measures.digest_ofTerm (r : Term) : (Measures.ofTerm r).digest = r.map some := by
  induction r using Rose.ind with
  | node a cs ih =>
    rw [Measures.ofTerm_node, Rose.map_node]
    show Digest.combine a _ = Digest.combine a _
    rw [List.map_map]
    exact congrArg _ (List.map_congr_left ih)

namespace Tree

variable {t u : Tree}

/-! ### The pass over all nodes -/

/-- `u` is `t` up to stored values, and those of the nodes in `S` are the values of their terms. -/
structure Settled (t : Tree) (S : Nat → Prop) (u : Tree) : Prop where
  count_eq : u.count = t.count
  atom_eq : ∀ n, u.atom n = t.atom n
  children_eq : ∀ n, u.children n = t.children n
  measures_eq : ∀ n, S n → u.measures n = .ofTerm (t.term n)

theorem Settled.mono {S S' : Nat → Prop} (h : Settled t S u) (hS : ∀ n, S' n → S n) :
    Settled t S' u :=
  { h with measures_eq := fun n hn => h.measures_eq n (hS n hn) }

/-- A node is settled once its children are, and the settled ones stay so. -/
theorem Settled.finishNode {S : Nat → Prop} (h : Settled t S u) {n : Nat} (hn : n < t.count)
    (hc : ∀ c ∈ t.children n, S c) : Settled t (fun k => S k ∨ k = n) (u.finishNode n) where
  count_eq := (count_setMeasures ..).trans h.count_eq
  atom_eq k := (atom_setMeasures ..).trans (h.atom_eq k)
  children_eq k := (children_setMeasures ..).trans (h.children_eq k)
  measures_eq := by
    intro k hk
    rw [Tree.finishNode, measures_setMeasures, h.count_eq]
    by_cases hkn : n = k
    · subst hkn
      have hms : (t.children n).map u.measures = (t.children n).map fun c => .ofTerm (t.term c) :=
        List.map_congr_left fun c hcc => h.measures_eq c (hc c hcc)
      rw [if_pos ⟨rfl, hn⟩, h.atom_eq, h.children_eq, hms, term_eq, Measures.ofTerm_node,
        List.map_map]
      rfl
    · rw [if_neg fun e => hkn e.1]
      rcases hk with hk | rfl
      · exact h.measures_eq k hk
      · exact absurd rfl hkn

theorem postOrder_subtree (t : Tree) (n : Nat) :
    (t.subtree n).postOrder = ((t.children n).flatMap fun c => (t.subtree c).postOrder) ++ [n] := by
  rw [subtree_eq, Rose.postOrder_node, List.map_map, List.flatMap_def]
  rfl

/-- Going over a subtree, children first, settles it. -/
theorem Settled.foldl_postOrder {S : Nat → Prop} (h : Settled t S u) {n : Nat}
    (hn : n < t.count) :
    Settled t (fun k => S k ∨ k ∈ t.descendants n)
      ((t.subtree n).postOrder.foldl Tree.finishNode u) := by
  induction n using children_induction (t := t) generalizing S u with
  | step n ih =>
    -- the subtrees of some of the children, one after the other
    have hcs : ∀ (cs : List Nat), (∀ c ∈ cs, c ∈ t.children n) → ∀ (S : Nat → Prop) (u : Tree),
        Settled t S u → Settled t (fun k => S k ∨ ∃ c ∈ cs, k ∈ t.descendants c)
          ((cs.flatMap fun c => (t.subtree c).postOrder).foldl Tree.finishNode u) := by
      intro cs
      induction cs with
      | nil => exact fun _ S u hu => hu.mono (by simp)
      | cons c cs ihcs =>
        intro hsub S u hu
        have hc := hsub c List.mem_cons_self
        have h1 := ih c hc hu (lt_count_of_parent (mem_children.1 hc))
        have h2 := ihcs (fun d hd => hsub d (List.mem_cons_of_mem c hd)) _ _ h1
        rw [List.flatMap_cons, List.foldl_append]
        refine h2.mono ?_
        rintro k (hk | ⟨d, hd, hk⟩)
        · exact .inl (.inl hk)
        · rcases List.mem_cons.1 hd with rfl | hd
          · exact .inl (.inr hk)
          · exact .inr ⟨d, hd, hk⟩
    have hall := hcs (t.children n) (fun _ hc => hc) S u h
    rw [postOrder_subtree, List.foldl_append]
    refine (hall.finishNode hn fun c hc => .inr ⟨c, hc, self_mem_descendants t c⟩).mono ?_
    rintro k (hk | hk)
    · exact .inl (.inl hk)
    · rcases mem_descendants_iff.1 hk with rfl | hk
      · exact .inr rfl
      · exact .inl (.inr hk)

/-- Finishing stores the values of the terms, whatever was stored before. -/
theorem measures_finish (t : Tree) {n : Nat} (hn : n < t.count) :
    t.finish.measures n = .ofTerm (t.term n) := by
  have h0 : Settled t (fun _ => False) t := ⟨rfl, fun _ => rfl, fun _ => rfl, fun _ => False.elim⟩
  exact (h0.foldl_postOrder t.root_lt_count).measures_eq n (.inr (mem_descendants_root hn))

theorem subtree_setMeasures (t : Tree) (n k : Nat) (m : Measures) :
    (t.setMeasures n m).subtree k = t.subtree k := by
  have h : ∀ d k, (t.setMeasures n m).subtreeTo d k = t.subtreeTo d k := by
    intro d
    induction d with
    | zero => exact fun _ => rfl
    | succ d ih =>
      intro k
      rw [subtreeTo, subtreeTo, children_setMeasures]
      exact congrArg _ (List.map_congr_left fun c _ => ih c)
  rw [subtree, subtree, count_setMeasures, h]

@[simp] theorem subtree_finish (t : Tree) (n : Nat) : t.finish.subtree n = t.subtree n :=
  finish_keeps (fun u => u.subtree n) (fun u k m => u.subtree_setMeasures k n m) t

@[simp] theorem term_finish (t : Tree) (n : Nat) : t.finish.term n = t.term n := by
  rw [term, term, subtree_finish]
  exact congrArg (Rose.map · _) (funext t.atom_finish)

/-! ### Equal digests -/

/-- A tree that was finished and not changed since. -/
def IsFinished (t : Tree) : Prop :=
  ∃ s : Tree, t = s.finish

theorem IsFinished.measures_eq_ofTerm (h : t.IsFinished) {n : Nat} (hn : n < t.count) :
    t.measures n = .ofTerm (t.term n) := by
  obtain ⟨s, rfl⟩ := h
  rw [count_finish] at hn
  rw [measures_finish s hn, term_finish]

theorem IsFinished.digest_eq (h : t.IsFinished) {n : Nat} (hn : n < t.count) :
    t.digest n = (t.term n).map some := by
  rw [digest, h.measures_eq_ofTerm hn, Measures.digest_ofTerm]

theorem digest_of_count_le {n : Nat} (h : t.count ≤ n) : t.digest n = .unset := by
  rw [digest, measures, node_of_count_le h]
  rfl

theorem term_of_count_le {n : Nat} (h : t.count ≤ n) : t.term n = .node default [] := by
  rw [term_eq, children_of_count_le h, atom, node_of_count_le h]
  rfl

theorem IsFinished.digest_ne_unset (h : t.IsFinished) {n : Nat} (hn : n < t.count) :
    t.digest n ≠ .unset := by
  rw [h.digest_eq hn, term_eq, Rose.map_node]
  exact Digest.combine_ne_unset _ _

/-- In finished trees equal digests mean equal kinds and labels all the way down. -/
theorem IsFinished.term_eq_of_digest_eq (ht : t.IsFinished) (hu : u.IsFinished) {a b : Nat}
    (h : t.digest a = u.digest b) : t.term a = u.term b := by
  rcases Nat.lt_or_ge a t.count with ha | ha <;> rcases Nat.lt_or_ge b u.count with hb | hb
  · rw [ht.digest_eq ha, hu.digest_eq hb] at h
    exact Rose.map_injective (fun _ _ => Option.some.inj) _ _ h
  · rw [digest_of_count_le hb] at h
    exact absurd h (ht.digest_ne_unset ha)
  · rw [digest_of_count_le ha] at h
    exact absurd h.symm (hu.digest_ne_unset hb)
  · rw [term_of_count_le ha, term_of_count_le hb]

theorem IsFinished.digest_eq_of_term_eq (ht : t.IsFinished) (hu : u.IsFinished) {a b : Nat}
    (ha : a < t.count) (hb : b < u.count) (h : t.term a = u.term b) : t.digest a = u.digest b := by
  rw [ht.digest_eq ha, hu.digest_eq hb, h]

/-- In finished trees the stored values hide no subtrees that agree. -/
theorem IsFinished.isIsomorphic_iff (ht : t.IsFinished) (hu : u.IsFinished) {a b : Nat}
    (ha : a < t.count) (hb : b < u.count) : t.isIsomorphic a u b = true ↔ t.term a = u.term b := by
  refine ⟨term_eq_of_isIsomorphic, fun hterm => ?_⟩
  have hmeasures : t.measures a = u.measures b := by
    rw [ht.measures_eq_ofTerm ha, hu.measures_eq_ofTerm hb, hterm]
  simp only [isIsomorphic, Bool.and_eq_true, decide_eq_true_eq]
  exact ⟨⟨congrArg Measures.digest hmeasures, congrArg Measures.size hmeasures⟩, hterm⟩

/-! ### Overlays of equal terms -/

/-- At every position of an overlay of equal terms the terms are equal. -/
theorem term_eq_of_mem_overlay {a b : Nat} (h : t.term a = u.term b) {l : Link}
    (hl : l ∈ t.overlay u a b) : t.term l.1 = u.term l.2 := by
  induction a using children_induction (t := t) generalizing b with
  | step a ih =>
    rw [overlay_eq, List.mem_cons, List.mem_flatMap] at hl
    rcases hl with rfl | ⟨⟨c, d⟩, hcd, hl⟩
    · exact h
    · have hcd := List.mem_reverse.1 hcd
      have hterms := h
      rw [term_eq, term_eq u, Rose.node.injEq] at hterms
      obtain ⟨i, hi, hget⟩ := List.mem_iff_getElem.1 hcd
      rw [List.length_zip, Nat.lt_min] at hi
      rw [List.getElem_zip, Prod.mk.injEq] at hget
      obtain ⟨rfl, rfl⟩ := hget
      have hi' := congrArg (fun terms => terms[i]?) hterms.2
      refine ih _ (List.getElem_mem hi.1) ?_ hl
      simpa [List.getElem?_eq_getElem hi.1, List.getElem?_eq_getElem hi.2] using hi'

theorem kind_eq_of_term_eq {a b : Nat} (h : t.term a = u.term b) : t.kind a = u.kind b := by
  rw [term_eq, term_eq u, Rose.node.injEq] at h
  exact congrArg Atom.kind h.1

/-- A finished file that holds one name. -/
def fileOf (name : String) : Tree :=
  ((single ⟨Kind.compilationUnit, none⟩ ⟨0, 9⟩).addChild root
    ⟨Kind.simpleName, some name⟩ ⟨1, 8⟩).finish

end Tree

end Counterpart
