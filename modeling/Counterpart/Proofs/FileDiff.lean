import Counterpart.FileDiff
import Counterpart.Proofs.LinkSet

/-!
# Lists of differences as relations

`FileDiff.Relates ds source target l` says that a list of differences links the ends of `l` in the
files at two paths. Recording links adds them to the relation of their own file pair and leaves those
of all others alone (`relates_foldl_record`).
-/

namespace Counterpart.FileDiff

/-- Some difference between the files at two paths holds the link. -/
def Relates (ds : List FileDiff) (source target : String) (l : Link) : Prop :=
  ∃ d ∈ ds, d.isBetween source target = true ∧ l ∈ d.links.pairs

/-- Every difference holds a well-formed set of links. -/
def AllWellFormed (ds : List FileDiff) : Prop :=
  ∀ d ∈ ds, d.links.WellFormed

variable {ds : List FileDiff} {e : FileDiff} {source target : String} {l : Link}

theorem isBetween_iff {d : FileDiff} :
    d.isBetween source target = true ↔
      d.files.sourcePath = source ∧ d.files.targetPath = target := by
  simp [isBetween]

theorem allWellFormed_nil : AllWellFormed [] := by
  intro d hd
  cases hd

@[simp] theorem relates_nil : ¬ Relates [] source target l := by
  simp [Relates]

theorem relates_cons {d : FileDiff} :
    Relates (d :: ds) source target l ↔
      (d.isBetween source target = true ∧ l ∈ d.links.pairs) ∨ Relates ds source target l := by
  simp [Relates]

/-- Every difference after an insertion was there, was inserted, or is one that was merged. -/
theorem forall_mem_insertInto {P : FileDiff → Prop} (hds : ∀ d ∈ ds, P d) (he : P e)
    (hmerge : ∀ d ∈ ds, P (d.merge e)) : ∀ d ∈ insertInto ds e, P d := by
  induction ds with
  | nil =>
    intro d hd
    obtain rfl := List.mem_singleton.1 hd
    exact he
  | cons c cs ih =>
    have hrest := ih (fun x hx => hds x (List.mem_cons_of_mem c hx))
      (fun x hx => hmerge x (List.mem_cons_of_mem c hx))
    unfold insertInto
    split
    · intro d hd
      rcases List.mem_cons.1 hd with rfl | hd
      · exact hmerge c List.mem_cons_self
      · exact hds d (List.mem_cons_of_mem c hd)
    · intro d hd
      rcases List.mem_cons.1 hd with rfl | hd
      · exact hds d List.mem_cons_self
      · exact hrest d hd

theorem AllWellFormed.insertInto (h : AllWellFormed ds) (he : e.links.WellFormed) :
    AllWellFormed (insertInto ds e) :=
  forall_mem_insertInto h he fun d hd => (h d hd).insertMany e.links.pairs

theorem relates_insertInto (h : AllWellFormed ds) :
    Relates (insertInto ds e) source target l ↔ Relates ds source target l ∨
      (e.isBetween source target = true ∧ l ∈ e.links.pairs) := by
  induction ds with
  | nil => simp [insertInto, relates_cons]
  | cons d ds ih =>
    have hd := h d List.mem_cons_self
    have hds : AllWellFormed ds := fun x hx => h x (List.mem_cons_of_mem d hx)
    unfold insertInto
    split
    · next hsame =>
      -- `d` has the paths of `e`, so the merged difference counts for both
      have hpaths : e.isBetween source target = true ↔ d.isBetween source target = true := by
        rw [isBetween_iff] at hsame
        rw [isBetween_iff, isBetween_iff, hsame.1, hsame.2]
      have hmerge : (d.merge e).isBetween source target = d.isBetween source target := rfl
      rw [relates_cons, relates_cons, hmerge, hpaths, merge, hd.mem_union]
      constructor
      · rintro (⟨hb, hl | hl⟩ | hr)
        · exact .inl (.inl ⟨hb, hl⟩)
        · exact .inr ⟨hb, hl⟩
        · exact .inl (.inr hr)
      · rintro ((⟨hb, hl⟩ | hr) | ⟨hb, hl⟩)
        · exact .inl ⟨hb, .inl hl⟩
        · exact .inr hr
        · exact .inl ⟨hb, .inr hl⟩
    · rw [relates_cons, relates_cons, ih hds, or_assoc]

theorem AllWellFormed.record (h : AllWellFormed ds) (found : FilePair × List Link) :
    AllWellFormed (record ds found) := by
  unfold FileDiff.record
  split
  · exact h
  · exact h.insertInto (LinkSet.wellFormed_ofList found.2)

theorem relates_record (h : AllWellFormed ds) {found : FilePair × List Link} :
    Relates (record ds found) source target l ↔ Relates ds source target l ∨
      (found.1.sourcePath = source ∧ found.1.targetPath = target ∧ l ∈ found.2) := by
  unfold record
  split
  · next hempty =>
    rw [List.isEmpty_iff.1 hempty]
    simp
  · rw [relates_insertInto h, isBetween_iff, ofLinks, LinkSet.mem_ofList, and_assoc]

/-- Recording one after the other adds up all that was found. -/
theorem relates_foldl_record (h : AllWellFormed ds) {found : List (FilePair × List Link)} :
    Relates (found.foldl record ds) source target l ↔ Relates ds source target l ∨
      ∃ x ∈ found, x.1.sourcePath = source ∧ x.1.targetPath = target ∧ l ∈ x.2 := by
  induction found generalizing ds with
  | nil => simp
  | cons x found ih =>
    rw [List.foldl_cons, ih (h.record x), relates_record h, or_assoc]
    simp

end Counterpart.FileDiff
