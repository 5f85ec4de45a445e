import Counterpart.Proofs.DiffSet

/-!
# Differences with an index

Instead of being searched for, a difference may be looked up in an index that says for every two paths where
it stands. `Indexed.insert` merges at the place that the index gives, or appends and enters the new place.
The index always gives the place at which a search ends (`Indexed.Tracks`), so both ways build up the same
list and find the same differences (`Indexed.foldl_insert_eq`).
-/

namespace Counterpart.DiffSet

open FileDiff

/-- Differences in order, and the place of the one between two paths. -/
structure Indexed where
  diffs : List FileDiff := []
  place : String × String → Option Nat := fun _ => none

namespace Indexed

/-- Add a difference, merging it into the one that the index gives. -/
def insert (x : Indexed) (d : FileDiff) : Indexed :=
  match x.place d.paths with
  | some i => { x with diffs := x.diffs.modify i fun e => e.merge d }
  | none =>
    { diffs := x.diffs ++ [d]
      place := fun k => if k = d.paths then some x.diffs.length else x.place k }

/-- The difference between the files at two paths. -/
def get? (x : Indexed) (source target : String) : Option FileDiff :=
  (x.place (source, target)).bind fun i => x.diffs[i]?

/-- Where a search for two paths ends. -/
def search (ds : List FileDiff) (k : String × String) : Option Nat :=
  ds.findIdx? fun d => decide (d.paths = k)

/-- The index gives the places at which searches end. -/
def Tracks (x : Indexed) : Prop :=
  ∀ k, x.place k = search x.diffs k

theorem search_eq_map_paths (ds : List FileDiff) (k : String × String) :
    search ds k = (ds.map paths).findIdx? fun j => decide (j = k) := by
  rw [List.findIdx?_map]
  rfl

theorem search_eq_none_iff {ds : List FileDiff} {k : String × String} :
    search ds k = none ↔ k ∉ ds.map paths := by
  simp only [search, List.findIdx?_eq_none_iff, List.mem_map, decide_eq_false_iff_not, not_exists, not_and]

/-- Inserting a difference is merging it where the search for its paths ends. -/
theorem insertInto_eq_modify (ds : List FileDiff) (e : FileDiff) :
    insertInto ds e = match search ds e.paths with
      | some i => ds.modify i fun d => d.merge e
      | none => ds ++ [e] := by
  induction ds with
  | nil => rfl
  | cons d ds ih =>
    rw [insertInto, search, List.findIdx?_cons]
    by_cases hd : d.paths = e.paths
    · rw [if_pos (isBetween_iff_paths.2 hd), if_pos (decide_eq_true hd)]
      rfl
    · have hsearch : (ds.findIdx? fun d => decide (d.paths = e.paths)) = search ds e.paths := rfl
      rw [if_neg fun hb => hd (isBetween_iff_paths.1 hb), if_neg (by simpa using hd), ih, hsearch]
      cases search ds e.paths <;> rfl

theorem diffs_insert {x : Indexed} (h : x.Tracks) (d : FileDiff) :
    (x.insert d).diffs = insertInto x.diffs d := by
  rw [insertInto_eq_modify, insert, h]
  cases search x.diffs d.paths <;> rfl

theorem Tracks.insert {x : Indexed} (h : x.Tracks) (d : FileDiff) : (x.insert d).Tracks := by
  intro k
  rw [diffs_insert h, search_eq_map_paths, map_paths_insertInto, Indexed.insert, h]
  cases hsearch : search x.diffs d.paths with
  | some i =>
    have hmem : d.paths ∈ x.diffs.map paths := by
      by_contra hnot
      rw [search_eq_none_iff.2 hnot] at hsearch
      cases hsearch
    rw [if_pos hmem, ← search_eq_map_paths]
    exact h k
  | none =>
    rw [if_neg (search_eq_none_iff.1 hsearch), List.findIdx?_append, ← search_eq_map_paths]
    show (if k = d.paths then some x.diffs.length else x.place k) = _
    by_cases hk : k = d.paths
    · rw [if_pos hk, hk, hsearch]
      simp
    · have hne : (decide (d.paths = k)) = false := by simpa using Ne.symm hk
      rw [if_neg hk, h k, List.findIdx?_singleton, hne]
      simp

/-- Looking up in the index finds what a search finds. -/
theorem Tracks.get?_eq {x : Indexed} (h : x.Tracks) (source target : String) :
    x.get? source target = x.diffs.find? fun d => d.isBetween source target := by
  have hsame : (fun d : FileDiff => d.isBetween source target) =
      fun d => decide (d.paths = (source, target)) := by
    funext d
    rw [Bool.eq_iff_iff, isBetween_iff_paths, decide_eq_true_iff]
  rw [hsame, List.find?_eq_bind_findIdx?_getElem?, get?, h]
  rfl

theorem foldl_insert (es : List FileDiff) {x : Indexed} (h : x.Tracks) :
    (es.foldl insert x).Tracks ∧ (es.foldl insert x).diffs = es.foldl insertInto x.diffs := by
  induction es generalizing x with
  | nil => exact ⟨h, rfl⟩
  | cons e es ih =>
    rw [List.foldl_cons, List.foldl_cons, ← diffs_insert h]
    exact ih (h.insert e)

/-- With an index, the same differences are listed and found. -/
theorem foldl_insert_eq (es : List FileDiff) :
    (es.foldl insert {}).diffs = es.foldl insertInto [] ∧
    ∀ source target, (es.foldl insert {}).get? source target =
      (es.foldl insertInto []).find? fun d => d.isBetween source target := by
  obtain ⟨htracks, hdiffs⟩ := foldl_insert es (x := {}) fun _ => rfl
  refine ⟨hdiffs, fun source target => ?_⟩
  rw [htracks.get?_eq, hdiffs]

end Indexed

end Counterpart.DiffSet
