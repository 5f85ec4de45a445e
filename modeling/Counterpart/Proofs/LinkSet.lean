import Counterpart.LinkSet

/-!
# Link sets as relations

A link set keeps its links three times: in order, and by either end. `WellFormed` says that the three
agree and no link is kept twice. All operations keep it, and on well-formed sets inserting is adding
to a relation (`WellFormed.mem_insertMany`).
-/

namespace Counterpart.LinkSet

/-- The counterparts of a node are read off the links, and there are no repetitions. -/
structure WellFormed (x : LinkSet) : Prop where
  nodup : x.pairs.Nodup
  targets_eq : ∀ s, x.targets s = (x.pairs.filter fun l => l.1 == s).map Prod.snd
  sources_eq : ∀ d, x.sources d = (x.pairs.filter fun l => l.2 == d).map Prod.fst

theorem wellFormed_empty : empty.WellFormed where
  nodup := List.nodup_nil
  targets_eq := by simp
  sources_eq := by simp

namespace WellFormed

variable {x : LinkSet}

theorem contains_iff (h : x.WellFormed) {s d : Nat} :
    x.contains s d = true ↔ (s, d) ∈ x.pairs := by
  rw [contains, List.contains_iff_mem, h.targets_eq]
  simp only [List.mem_map, List.mem_filter, beq_iff_eq, Prod.exists]
  constructor
  · rintro ⟨s', d', ⟨hmem, rfl⟩, rfl⟩
    exact hmem
  · exact fun hmem => ⟨s, d, ⟨hmem, rfl⟩, rfl⟩

protected theorem insert (h : x.WellFormed) (s d : Nat) : (x.insert s d).WellFormed := by
  cases hc : x.contains s d with
  | true =>
    have hsame : x.insert s d = x := by rw [LinkSet.insert, if_pos hc]
    rw [hsame]
    exact h
  | false =>
    have hnew : (s, d) ∉ x.pairs := fun hmem => by
      rw [h.contains_iff.2 hmem] at hc
      cases hc
    have hpairs : (x.insert s d).pairs = x.pairs ++ [(s, d)] := by
      rw [pairs_insert, hc]
      rfl
    refine ⟨?_, ?_, ?_⟩
    · rw [hpairs, List.nodup_append]
      refine ⟨h.nodup, by simp, fun l hl k hk hlk => ?_⟩
      rw [hlk, List.mem_singleton.1 hk] at hl
      exact hnew hl
    · intro a
      rw [targets_insert, hpairs, h.targets_eq, List.filter_append, List.map_append]
      by_cases ha : a = s
      · simp [ha, hc]
      · simp [ha, Ne.symm ha]
    · intro b
      rw [sources_insert, hpairs, h.sources_eq, List.filter_append, List.map_append]
      by_cases hb : b = d
      · simp [hb, hc]
      · simp [hb, Ne.symm hb]

theorem mem_insert (h : x.WellFormed) {s d : Nat} {l : Link} :
    l ∈ (x.insert s d).pairs ↔ l ∈ x.pairs ∨ l = (s, d) := by
  rw [pairs_insert]
  split
  · next hc =>
    refine ⟨.inl, ?_⟩
    rintro (hl | rfl)
    · exact hl
    · exact h.contains_iff.1 hc
  · rw [List.mem_append, List.mem_singleton]

protected theorem insertMany (h : x.WellFormed) (ls : List Link) :
    (x.insertMany ls).WellFormed := by
  induction ls generalizing x with
  | nil => exact h
  | cons l ls ih => exact ih (h.insert l.1 l.2)

/-- Inserting links adds them to the relation. -/
theorem mem_insertMany (h : x.WellFormed) {ls : List Link} {l : Link} :
    l ∈ (x.insertMany ls).pairs ↔ l ∈ x.pairs ∨ l ∈ ls := by
  induction ls generalizing x with
  | nil => simp
  | cons k ls ih =>
    rw [insertMany_cons, ih (h.insert k.1 k.2), h.mem_insert, List.mem_cons, or_assoc]

theorem mem_union (h : x.WellFormed) {y : LinkSet} {l : Link} :
    l ∈ (x.union y).pairs ↔ l ∈ x.pairs ∨ l ∈ y.pairs :=
  h.mem_insertMany

/-- Two sets hold the same links if every link of one is in the other. -/
theorem sameRelation_iff (h : x.WellFormed) {y : LinkSet} (hy : y.WellFormed) :
    x.sameRelation y = true ↔ ∀ l, l ∈ x.pairs ↔ l ∈ y.pairs := by
  simp only [sameRelation, Bool.and_eq_true, List.all_eq_true, h.contains_iff, hy.contains_iff]
  exact ⟨fun hboth l => ⟨hboth.1 l, hboth.2 l⟩,
    fun hiff => ⟨fun l => (hiff l).1, fun l => (hiff l).2⟩⟩

end WellFormed

theorem wellFormed_ofList (ls : List Link) : (ofList ls).WellFormed :=
  wellFormed_empty.insertMany ls

theorem mem_ofList {ls : List Link} {l : Link} : l ∈ (ofList ls).pairs ↔ l ∈ ls := by
  simp [ofList, wellFormed_empty.mem_insertMany]

end Counterpart.LinkSet
