import Counterpart.Proofs.DiffSet
import Mathlib.Data.List.Induction

/-!
# Stores and their order

`FileDiff.storeAt ds source target` is the link set that a list of differences holds for the files at two
paths; where there is none, it is empty. Recording links inserts them into the store of their own files and
leaves all others alone (`storeAt_record`), and links between the same files may be recorded piece by piece
(`record_append`). So the order of a store is the order in which its links came, without repetitions
(`LinkSet.WellFormed.pairs_insertMany_eq`), and the differences stand in the order in which their files
first came up (`map_paths_foldl_record`). Both orders are made by `note`, which appends what is not there.
-/

namespace Counterpart

/-! ### First come, first noted -/

section Note

variable {α : Type} [BEq α] [LawfulBEq α]

/-- Append an element, unless it is there. -/
def note (xs : List α) (x : α) : List α :=
  if x ∈ xs then xs else xs ++ [x]

theorem mem_note {xs : List α} {x y : α} : y ∈ note xs x ↔ y ∈ xs ∨ y = x := by
  unfold note
  split
  · next hx => exact ⟨.inl, fun h => h.elim id fun e => e ▸ hx⟩
  · rw [List.mem_append, List.mem_singleton]

theorem mem_foldl_note {xs ys : List α} {y : α} : y ∈ ys.foldl note xs ↔ y ∈ xs ∨ y ∈ ys := by
  induction ys generalizing xs with
  | nil => simp
  | cons z ys ih => rw [List.foldl_cons, ih, mem_note, List.mem_cons, or_assoc]

/-- Noting elements one after the other appends them in their order, without those that are there and
without repetitions. -/
theorem foldl_note_eq (xs ys : List α) :
    ys.foldl note xs = xs ++ (ys.filter fun y => decide (y ∉ xs)).eraseDups := by
  induction ys generalizing xs with
  | nil => rw [List.foldl_nil, List.filter_nil, List.eraseDups_nil, List.append_nil]
  | cons y ys ih =>
    rw [List.foldl_cons, ih, note, List.filter_cons]
    by_cases hy : y ∈ xs
    · rw [if_pos hy, if_neg (by simpa using hy)]
    · have hrest : (ys.filter fun z => decide (z ∉ xs ++ [y])) =
          (ys.filter fun z => decide (z ∉ xs)).filter fun z => !z == y := by
        rw [List.filter_filter]
        refine List.filter_congr fun z _ => ?_
        rw [Bool.eq_iff_iff]
        simp [and_comm, not_or]
      rw [if_neg hy, if_pos (by simpa using hy), List.eraseDups_cons, ← hrest, List.append_assoc]
      rfl

theorem foldl_note_nil (ys : List α) : ys.foldl note [] = ys.eraseDups := by
  rw [foldl_note_eq, List.nil_append]
  exact congrArg List.eraseDups (List.filter_eq_self.2 fun y _ => by simp)

/-- Repetitions may be left out beforehand. -/
theorem foldl_note_foldl (xs ys : List α) : (ys.foldl note []).foldl note xs = ys.foldl note xs := by
  induction ys using List.reverseRecOn with
  | nil => rfl
  | append_singleton ys y ih =>
    rw [List.foldl_append, List.foldl_append, List.foldl_cons, List.foldl_nil, List.foldl_cons,
      List.foldl_nil]
    by_cases hy : y ∈ ys
    · have hin : ∀ zs : List α, y ∈ ys.foldl note zs := fun zs => mem_foldl_note.2 (.inr hy)
      rw [note, if_pos (hin []), note, if_pos (hin xs), ih]
    · have hout : y ∉ ys.foldl note [] := fun h => (mem_foldl_note.1 h).elim List.not_mem_nil hy
      rw [note, if_neg hout, List.foldl_append, ih]
      rfl

end Note

/-! ### Link sets -/

namespace LinkSet

variable {x : LinkSet}

theorem insert_of_contains {s d : Nat} (h : x.contains s d = true) : x.insert s d = x := by
  rw [insert, if_pos h]

theorem contains_insert_iff {s d a b : Nat} :
    (x.insert s d).contains a b = true ↔ x.contains a b = true ∨ (a, b) = (s, d) := by
  cases hc : x.contains s d with
  | true =>
    rw [insert_of_contains hc]
    refine ⟨.inl, ?_⟩
    rintro (h | h)
    · exact h
    · obtain ⟨rfl, rfl⟩ := Prod.mk.inj h
      exact hc
  | false =>
    rw [contains, contains, targets_insert, hc, List.contains_iff_mem, List.contains_iff_mem, Prod.mk.injEq]
    by_cases ha : a = s
    · simp [ha]
    · simp [ha]

theorem contains_insertMany_of_mem {ls : List Link} {l : Link} (h : l ∈ ls) :
    (x.insertMany ls).contains l.1 l.2 = true := by
  have hkeep : ∀ (ms : List Link) {y : LinkSet}, y.contains l.1 l.2 = true →
      (y.insertMany ms).contains l.1 l.2 = true := by
    intro ms
    induction ms with
    | nil => exact id
    | cons m ms ih => exact fun hy => ih (contains_insert_iff.2 (.inl hy))
  induction ls generalizing x with
  | nil => cases h
  | cons m ls ih =>
    rcases List.mem_cons.1 h with rfl | h
    · exact hkeep ls (contains_insert_iff.2 (.inr rfl))
    · exact ih h

/-- Links may be gathered in a set before they are inserted. -/
theorem insertMany_pairs_ofList (x : LinkSet) (ls : List Link) :
    x.insertMany (ofList ls).pairs = x.insertMany ls := by
  induction ls using List.reverseRecOn with
  | nil => rfl
  | append_singleton ls l ih =>
    rw [ofList, insertMany_append, insertMany_append, insertMany_cons, insertMany_nil, insertMany_cons,
      insertMany_nil, pairs_insert]
    split
    · next hc =>
      have hmem : l ∈ ls := mem_ofList.1 ((wellFormed_ofList ls).contains_iff.1 hc)
      rw [insert_of_contains (contains_insertMany_of_mem hmem)]
      exact ih
    · rw [insertMany_append]
      exact congrArg (fun y => y.insert l.1 l.2) ih

/-- Inserted links are appended in their order, without those that are there and without repetitions. -/
theorem WellFormed.pairs_insertMany_eq (h : x.WellFormed) (ls : List Link) :
    (x.insertMany ls).pairs = x.pairs ++ (ls.filter fun l => decide (l ∉ x.pairs)).eraseDups := by
  rw [← foldl_note_eq]
  induction ls generalizing x with
  | nil => rfl
  | cons l ls ih =>
    rw [insertMany_cons, ih (h.insert l.1 l.2), List.foldl_cons, pairs_insert, note]
    simp only [h.contains_iff]

end LinkSet

/-! ### Stores -/

namespace FileDiff

/-- The links that a list of differences holds for the files at two paths. -/
def storeAt (ds : List FileDiff) (source target : String) : LinkSet :=
  ((ds.find? fun d => d.isBetween source target).map links).getD .empty

variable {ds : List FileDiff} {p : FilePair} {source target : String}

theorem storeAt_cons (d : FileDiff) (ds : List FileDiff) (source target : String) :
    storeAt (d :: ds) source target =
      if d.isBetween source target then d.links else storeAt ds source target := by
  rw [storeAt, List.find?_cons]
  cases d.isBetween source target <;> rfl

theorem ofLinks_isBetween {ls : List Link} :
    (ofLinks p ls).isBetween source target = true ↔ (p.sourcePath, p.targetPath) = (source, target) :=
  isBetween_iff_paths

/-- Inserting links between two files, one difference further. -/
theorem insertInto_ofLinks_cons (d : FileDiff) (ds : List FileDiff) (p : FilePair) (ls : List Link) :
    insertInto (d :: ds) (ofLinks p ls) =
      if d.isBetween p.sourcePath p.targetPath then { d with links := d.links.insertMany ls } :: ds
      else d :: insertInto ds (ofLinks p ls) := by
  rw [insertInto, ← d.links.insertMany_pairs_ofList ls]
  rfl

theorem storeAt_insertInto (ds : List FileDiff) (p : FilePair) (ls : List Link) (source target : String) :
    storeAt (insertInto ds (ofLinks p ls)) source target =
      if (p.sourcePath, p.targetPath) = (source, target) then (storeAt ds source target).insertMany ls
      else storeAt ds source target := by
  induction ds with
  | nil =>
    rw [insertInto, storeAt_cons]
    by_cases hp : (p.sourcePath, p.targetPath) = (source, target)
    · rw [if_pos (ofLinks_isBetween.2 hp), if_pos hp]
      rfl
    · rw [if_neg fun hb => hp (ofLinks_isBetween.1 hb), if_neg hp]
  | cons d ds ih =>
    rw [insertInto_ofLinks_cons, storeAt_cons]
    by_cases hd : d.isBetween p.sourcePath p.targetPath = true
    · have hpaths : d.paths = (p.sourcePath, p.targetPath) := isBetween_iff_paths.1 hd
      rw [if_pos hd, storeAt_cons]
      show (if d.isBetween source target = true then _ else _) = _
      by_cases hp : (p.sourcePath, p.targetPath) = (source, target)
      · have hb : d.isBetween source target = true := isBetween_iff_paths.2 (hpaths.trans hp)
        rw [if_pos hb, if_pos hb, if_pos hp]
      · have hb : ¬ d.isBetween source target = true := fun hb =>
          hp (hpaths.symm.trans (isBetween_iff_paths.1 hb))
        rw [if_neg hb, if_neg hb, if_neg hp]
    · rw [if_neg hd, storeAt_cons, ih]
      by_cases hp : (p.sourcePath, p.targetPath) = (source, target)
      · have hb : ¬ d.isBetween source target = true := fun hb =>
          hd (isBetween_iff_paths.2 ((isBetween_iff_paths.1 hb).trans hp.symm))
        rw [if_pos hp, if_neg hb, if_neg hb, if_pos hp]
      · rw [if_neg hp, if_neg hp]

/-- Recording links inserts them into the store of their own files. -/
theorem storeAt_record (ds : List FileDiff) (p : FilePair) (ls : List Link) (source target : String) :
    storeAt (record ds (p, ls)) source target =
      if (p.sourcePath, p.targetPath) = (source, target) then (storeAt ds source target).insertMany ls
      else storeAt ds source target := by
  unfold record
  split
  · next hempty =>
    obtain rfl := List.isEmpty_iff.1 hempty
    rw [LinkSet.insertMany_nil, ite_self]
  · exact storeAt_insertInto ds p ls source target

/-- What was found in the files at two paths, in order. -/
def foundAt (found : List (FilePair × List Link)) (source target : String) : List Link :=
  (found.filter fun x => decide ((x.1.sourcePath, x.1.targetPath) = (source, target))).flatMap Prod.snd

theorem storeAt_foldl_record (found : List (FilePair × List Link)) (ds : List FileDiff)
    (source target : String) :
    storeAt (found.foldl record ds) source target =
      (storeAt ds source target).insertMany (foundAt found source target) := by
  induction found generalizing ds with
  | nil => rfl
  | cons x found ih =>
    rw [List.foldl_cons, ih, storeAt_record, foundAt, foundAt, List.filter_cons]
    by_cases hx : (x.1.sourcePath, x.1.targetPath) = (source, target)
    · rw [if_pos hx, if_pos (decide_eq_true hx), List.flatMap_cons, LinkSet.insertMany_append]
    · rw [if_neg hx, if_neg (by simpa using hx)]

theorem insertInto_append (ds : List FileDiff) (p : FilePair) (xs ys : List Link) :
    insertInto ds (ofLinks p (xs ++ ys)) = insertInto (insertInto ds (ofLinks p xs)) (ofLinks p ys) := by
  induction ds with
  | nil =>
    have hself : (ofLinks p xs).isBetween p.sourcePath p.targetPath = true := ofLinks_isBetween.2 rfl
    rw [insertInto, insertInto, insertInto_ofLinks_cons, if_pos hself, ofLinks, LinkSet.ofList,
      LinkSet.insertMany_append]
    rfl
  | cons d ds ih =>
    rw [insertInto_ofLinks_cons, insertInto_ofLinks_cons]
    by_cases hd : d.isBetween p.sourcePath p.targetPath = true
    · have hd' : ({ d with links := d.links.insertMany xs } : FileDiff).isBetween p.sourcePath p.targetPath =
        true := hd
      rw [if_pos hd, if_pos hd, insertInto_ofLinks_cons, if_pos hd', LinkSet.insertMany_append]
    · rw [if_neg hd, if_neg hd, insertInto_ofLinks_cons, if_neg hd, ih]

/-- Links between the same files may be recorded piece by piece. -/
theorem record_append (ds : List FileDiff) (p : FilePair) (xs ys : List Link) :
    record ds (p, xs ++ ys) = record (record ds (p, xs)) (p, ys) := by
  cases xs with
  | nil => rfl
  | cons x xs =>
    cases ys with
    | nil => rw [List.append_nil]; rfl
    | cons y ys => exact insertInto_append ds p (x :: xs) (y :: ys)

/-! ### Files -/

/-- The paths of the files in which links were found, one for each link. -/
def sightings (found : List (FilePair × List Link)) : List (String × String) :=
  found.flatMap fun x => x.2.map fun _ => (x.1.sourcePath, x.1.targetPath)

theorem map_paths_foldl_insertInto (es ds : List FileDiff) :
    (es.foldl insertInto ds).map paths = (es.map paths).foldl note (ds.map paths) := by
  induction es generalizing ds with
  | nil => rfl
  | cons e es ih => rw [List.foldl_cons, ih, map_paths_insertInto, List.map_cons, List.foldl_cons, note]

theorem map_paths_record (ds : List FileDiff) (p : FilePair) (ls : List Link) :
    (record ds (p, ls)).map paths =
      (ls.map fun _ => (p.sourcePath, p.targetPath)).foldl note (ds.map paths) := by
  cases ls with
  | nil => rfl
  | cons l ls =>
    have hsame : ∀ ks : List (String × String), (p.sourcePath, p.targetPath) ∈ ks →
        (ls.map fun _ => (p.sourcePath, p.targetPath)).foldl note ks = ks := by
      intro ks hks
      induction ls with
      | nil => rfl
      | cons m ls ih => rw [List.map_cons, List.foldl_cons, note, if_pos hks, ih]
    rw [List.map_cons, List.foldl_cons, hsame _ (mem_note.2 (.inr rfl))]
    exact map_paths_insertInto ds (ofLinks p (l :: ls))

/-- The differences stand in the order in which their files first came up. -/
theorem map_paths_foldl_record (found : List (FilePair × List Link)) (ds : List FileDiff) :
    (found.foldl record ds).map paths = (sightings found).foldl note (ds.map paths) := by
  induction found generalizing ds with
  | nil => rfl
  | cons x found ih =>
    rw [List.foldl_cons, ih, map_paths_record, sightings, sightings, List.flatMap_cons,
      List.foldl_append]

end FileDiff

end Counterpart
