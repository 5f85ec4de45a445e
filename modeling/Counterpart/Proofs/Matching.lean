import Counterpart.Matching

/-!
# One-to-one matchings

`Matching.pair` never looks at earlier pairs, so a matching is one-to-one only if its pairs were added
with care. `Grows P m m'` says how: from `m` to `m'` nothing happened but pairing nodes that were free
on both sides, each time a pair with the property `P`. A matching that grew from the empty one is
one-to-one (`Grows.oneToOne`) and all its pairs have the property (`Grows.forall_mem`). Nothing that was
there goes away, and what `P` leaves out is as it was (`Grows.target?_eq`). What a loop does follows from
what one round does (`Grows.foldl`).
-/

namespace Counterpart.Matching

/-- No node occurs in two pairs, and both look-ups answer with the pairs. -/
structure OneToOne (m : Matching) : Prop where
  nodup_sources : (m.pairs.map Prod.fst).Nodup
  nodup_targets : (m.pairs.map Prod.snd).Nodup
  target?_eq_some_iff : ∀ s d, m.target? s = some d ↔ (s, d) ∈ m.pairs
  source?_eq_some_iff : ∀ s d, m.source? d = some s ↔ (s, d) ∈ m.pairs

theorem oneToOne_empty : empty.OneToOne where
  nodup_sources := List.nodup_nil
  nodup_targets := List.nodup_nil
  target?_eq_some_iff := by simp
  source?_eq_some_iff := by simp

variable {m m' : Matching} {s d : Nat}

theorem OneToOne.hasSource_iff (h : m.OneToOne) :
    m.hasSource s = true ↔ ∃ d, (s, d) ∈ m.pairs := by
  simp only [hasSource, Option.isSome_iff_exists, h.target?_eq_some_iff]

theorem OneToOne.hasTarget_iff (h : m.OneToOne) :
    m.hasTarget d = true ↔ ∃ s, (s, d) ∈ m.pairs := by
  simp only [hasTarget, Option.isSome_iff_exists, h.source?_eq_some_iff]

theorem hasSource_pair_self (m : Matching) (s d : Nat) : (m.pair s d).hasSource s = true := by
  rw [hasSource, target?_pair, if_pos rfl]
  rfl

/-- Pairing two free nodes keeps a matching one-to-one. -/
theorem OneToOne.pair (h : m.OneToOne) (hs : m.hasSource s = false) (hd : m.hasTarget d = false) :
    (m.pair s d).OneToOne := by
  have hs' : ∀ y, (s, y) ∉ m.pairs := by
    intro y hy
    rw [h.hasSource_iff.2 ⟨y, hy⟩] at hs
    cases hs
  have hd' : ∀ x, (x, d) ∉ m.pairs := by
    intro x hx
    rw [h.hasTarget_iff.2 ⟨x, hx⟩] at hd
    cases hd
  refine ⟨?_, ?_, ?_, ?_⟩
  · rw [pairs_pair, List.map_append, List.nodup_append]
    refine ⟨h.nodup_sources, by simp, ?_⟩
    intro x hx y hy hxy
    obtain ⟨⟨x, z⟩, hl, rfl⟩ := List.mem_map.1 hx
    obtain rfl : x = s := hxy.trans (List.mem_singleton.1 hy)
    exact hs' z hl
  · rw [pairs_pair, List.map_append, List.nodup_append]
    refine ⟨h.nodup_targets, by simp, ?_⟩
    intro x hx y hy hxy
    obtain ⟨⟨z, x⟩, hl, rfl⟩ := List.mem_map.1 hx
    obtain rfl : x = d := hxy.trans (List.mem_singleton.1 hy)
    exact hd' z hl
  · intro x y
    rw [target?_pair, pairs_pair, List.mem_append, List.mem_singleton]
    by_cases hx : x = s
    · subst hx
      simp [hs', eq_comm]
    · simp [hx, h.target?_eq_some_iff]
  · intro x y
    rw [source?_pair, pairs_pair, List.mem_append, List.mem_singleton]
    by_cases hy : y = d
    · subst hy
      simp [hd', eq_comm]
    · simp [hy, h.source?_eq_some_iff]

/-- From `m` to the other matching only free nodes were paired, and every new pair has `P`. -/
inductive Grows (P : Link → Prop) (m : Matching) : Matching → Prop
  | refl : Grows P m m
  | pair {m' : Matching} {s d : Nat} (h : Grows P m m') (hs : m'.hasSource s = false)
      (hd : m'.hasTarget d = false) (hP : P (s, d)) : Grows P m (m'.pair s d)

namespace Grows

variable {P Q : Link → Prop}

theorem trans {m'' : Matching} (h : Grows P m m') (h' : Grows P m' m'') : Grows P m m'' := by
  induction h' with
  | refl => exact h
  | pair _ hs hd hP ih => exact ih.pair hs hd hP

theorem mono (h : Grows P m m') (hPQ : ∀ l, P l → Q l) : Grows Q m m' := by
  induction h with
  | refl => exact .refl
  | pair _ hs hd hP ih => exact ih.pair hs hd (hPQ _ hP)

theorem oneToOne (h : Grows P m m') (hm : m.OneToOne) : m'.OneToOne := by
  induction h with
  | refl => exact hm
  | pair _ hs hd _ ih => exact ih.pair hs hd

theorem mem_of_mem (h : Grows P m m') {l : Link} (hl : l ∈ m.pairs) : l ∈ m'.pairs := by
  induction h with
  | refl => exact hl
  | pair _ _ _ _ ih =>
    rw [pairs_pair]
    exact List.mem_append_left _ ih

theorem mem_or (h : Grows P m m') {l : Link} (hl : l ∈ m'.pairs) : l ∈ m.pairs ∨ P l := by
  induction h with
  | refl => exact .inl hl
  | pair _ _ _ hP ih =>
    rw [pairs_pair, List.mem_append, List.mem_singleton] at hl
    rcases hl with hl | rfl
    · exact ih hl
    · exact .inr hP

/-- Pairs are only added at the end. -/
theorem pairs_extend (h : Grows P m m') : m.pairs <+: m'.pairs := by
  induction h with
  | refl => exact List.prefix_rfl
  | pair _ _ _ _ ih =>
    rw [pairs_pair]
    exact ih.trans (List.prefix_append _ _)

/-- A node that has a partner keeps having one. -/
theorem hasSource (h : Grows P m m') (hs : m.hasSource s = true) : m'.hasSource s = true := by
  induction h with
  | refl => exact hs
  | pair _ _ _ _ ih =>
    rw [Matching.hasSource, target?_pair]
    split
    · rfl
    · exact ih

theorem hasTarget (h : Grows P m m') (hd : m.hasTarget d = true) : m'.hasTarget d = true := by
  induction h with
  | refl => exact hd
  | pair _ _ _ _ ih =>
    rw [Matching.hasTarget, source?_pair]
    split
    · rfl
    · exact ih

/-- What is free was free before. -/
theorem target_was_free (h : Grows P m m') (hd : m'.hasTarget d = false) : m.hasTarget d = false := by
  cases htaken : m.hasTarget d with
  | false => rfl
  | true =>
    rw [h.hasTarget htaken] at hd
    cases hd

/-- What no new pair has as its source keeps its partner, or stays without one. -/
theorem target?_eq (h : Grows P m m') (hP : ∀ l, P l → l.1 ≠ s) : m'.target? s = m.target? s := by
  induction h with
  | refl => rfl
  | pair _ _ _ hnew ih => rw [target?_pair, if_neg (hP _ hnew).symm, ih]

theorem source_free (h : Grows P m m') (hs : m.hasSource s = false) (hP : ∀ l, P l → l.1 ≠ s) :
    m'.hasSource s = false := by
  rw [Matching.hasSource, h.target?_eq hP]
  exact hs

theorem target_free (h : Grows P m m') (hd : m.hasTarget d = false) (hP : ∀ l, P l → l.2 ≠ d) :
    m'.hasTarget d = false := by
  induction h with
  | refl => exact hd
  | pair _ _ _ hnew ih =>
    rw [Matching.hasTarget, source?_pair, if_neg (hP _ hnew).symm]
    exact ih

/-- In a matching that grew from the empty one, every pair has the property. -/
theorem forall_mem (h : Grows P empty m) : ∀ l ∈ m.pairs, P l := by
  intro l hl
  rcases h.mem_or hl with hl | hP
  · simp at hl
  · exact hP

/-- A loop lets a matching grow if every round does that starts from what grew so far. -/
theorem foldl {α : Type} {f : Matching → α → Matching} {xs : List α}
    (step : ∀ x ∈ xs, ∀ m', Grows P m m' → Grows P m' (f m' x)) : Grows P m (xs.foldl f m) := by
  have hrun : ∀ ys : List α, (∀ y ∈ ys, y ∈ xs) → ∀ m', Grows P m m' →
      Grows P m (ys.foldl f m') := by
    intro ys
    induction ys with
    | nil => exact fun _ _ h => h
    | cons y ys ih =>
      intro hys m' h
      exact ih (fun z hz => hys z (List.mem_cons_of_mem y hz)) _
        (h.trans (step y (hys y List.mem_cons_self) m' h))
  exact hrun xs (fun _ hx => hx) m .refl

end Grows

end Counterpart.Matching
