import Counterpart.DiffSet
import Counterpart.Proofs.Outcome.Justification
import Mathlib.Data.List.Nodup

/-!
# Gathered differences

Whatever list of differences a reconciliation or a set of them builds up, it is `Gathered` from the two
versions: it has one difference at most for every two paths, and each of them holds a link and stands for
files that the versions have. Such a list is known by its relations, for a difference is found exactly
where something is related (`Gathered.relates_iff`, `Gathered.map_files_eq`).
-/

namespace Counterpart

namespace FileDiff

def paths (d : FileDiff) : String × String :=
  (d.files.sourcePath, d.files.targetPath)

/-- A difference between two files of the versions that holds some link. -/
structure IsOf (v : Versions) (d : FileDiff) : Prop where
  filePair_eq : v.filePair d.files.sourcePath d.files.targetPath = .ok d.files
  wellFormed : d.links.WellFormed
  nonempty : d.links.pairs ≠ []

/-- Differences of the versions, one at most for every two paths. -/
structure Gathered (v : Versions) (ds : List FileDiff) : Prop where
  distinct : (ds.map paths).Nodup
  isOf : ∀ d ∈ ds, d.IsOf v

variable {v : Versions} {ds es : List FileDiff} {d e : FileDiff} {source target : String} {l : Link}

theorem isBetween_iff_paths : d.isBetween source target = true ↔ d.paths = (source, target) := by
  rw [isBetween_iff, paths, Prod.mk.injEq]

/-! ### Inserting -/

/-- Inserting a difference adds its paths at the end, unless they are there. -/
theorem map_paths_insertInto (ds : List FileDiff) (e : FileDiff) :
    (insertInto ds e).map paths =
      if e.paths ∈ ds.map paths then ds.map paths else ds.map paths ++ [e.paths] := by
  induction ds with
  | nil => rfl
  | cons d ds ih =>
    unfold insertInto
    by_cases hsame : d.isBetween e.files.sourcePath e.files.targetPath = true
    · have hpaths : d.paths = e.paths := isBetween_iff_paths.1 hsame
      rw [if_pos hsame, List.map_cons, List.map_cons, hpaths, if_pos List.mem_cons_self]
      exact congrArg (· :: _) hpaths
    · have hpaths : e.paths ≠ d.paths := fun heq => hsame (isBetween_iff_paths.2 heq.symm)
      rw [if_neg hsame, List.map_cons, List.map_cons, ih]
      by_cases hmem : e.paths ∈ ds.map paths
      · rw [if_pos hmem, if_pos (List.mem_cons_of_mem _ hmem)]
      · rw [if_neg hmem, if_neg (by simp only [List.mem_cons, not_or]; exact ⟨hpaths, hmem⟩)]
        rfl

theorem IsOf.merge (hd : d.IsOf v) (e : FileDiff) : (d.merge e).IsOf v where
  filePair_eq := hd.filePair_eq
  wellFormed := hd.wellFormed.insertMany e.links.pairs
  nonempty := by
    obtain ⟨l, hl⟩ := List.exists_mem_of_ne_nil _ hd.nonempty
    exact List.ne_nil_of_mem (hd.wellFormed.mem_union.2 (.inl hl))

theorem IsOf.ofLinks {p : FilePair} (hp : v.filePair p.sourcePath p.targetPath = .ok p)
    {ls : List Link} (hls : ls ≠ []) : (ofLinks p ls).IsOf v where
  filePair_eq := hp
  wellFormed := LinkSet.wellFormed_ofList ls
  nonempty := by
    obtain ⟨l, hl⟩ := List.exists_mem_of_ne_nil _ hls
    exact List.ne_nil_of_mem (LinkSet.mem_ofList.2 hl)

namespace Gathered

theorem nil (v : Versions) : Gathered v [] :=
  ⟨List.nodup_nil, fun _ hd => nomatch hd⟩

protected theorem insertInto (h : Gathered v ds) (he : e.IsOf v) : Gathered v (insertInto ds e) := by
  refine ⟨?_, forall_mem_insertInto h.isOf he fun d hd => (h.isOf d hd).merge e⟩
  rw [map_paths_insertInto]
  split
  · exact h.distinct
  · next hnew =>
    rw [List.nodup_append]
    refine ⟨h.distinct, List.nodup_singleton _, fun x hx y hy hxy => ?_⟩
    rw [hxy, List.mem_singleton.1 hy] at hx
    exact hnew hx

theorem foldl_insertInto (h : Gathered v ds) (hes : ∀ e ∈ es, e.IsOf v) :
    Gathered v (es.foldl FileDiff.insertInto ds) := by
  induction es generalizing ds with
  | nil => exact h
  | cons e es ih =>
    exact ih (h.insertInto (hes e List.mem_cons_self)) fun x hx => hes x (List.mem_cons_of_mem e hx)

theorem foldl_record (h : Gathered v ds) {found : List (FilePair × List Link)}
    (hfound : ∀ x ∈ found, v.filePair x.1.sourcePath x.1.targetPath = .ok x.1) :
    Gathered v (found.foldl record ds) := by
  induction found generalizing ds with
  | nil => exact h
  | cons x found ih =>
    refine ih ?_ fun y hy => hfound y (List.mem_cons_of_mem x hy)
    unfold record
    split
    · exact h
    · next hlinks => exact h.insertInto (.ofLinks (hfound x List.mem_cons_self) (by simpa using hlinks))

theorem allWellFormed (h : Gathered v ds) : AllWellFormed ds :=
  fun d hd => (h.isOf d hd).wellFormed

/-! ### Finding -/

theorem find?_eq_some_iff (h : Gathered v ds) :
    ds.find? (fun d => d.isBetween source target) = some d ↔
      d ∈ ds ∧ d.isBetween source target = true := by
  constructor
  · intro hfind
    have hbetween := List.find?_some hfind
    exact ⟨List.mem_of_find?_eq_some hfind, hbetween⟩
  · rintro ⟨hd, hbetween⟩
    refine find?_eq_some_of_unique hd hbetween fun e he hbetween' => ?_
    exact List.inj_on_of_nodup_map h.distinct he hd
      ((isBetween_iff_paths.1 hbetween').trans (isBetween_iff_paths.1 hbetween).symm)

/-- What a gathered list relates is held by the difference that is found for the two paths. -/
theorem relates_iff (h : Gathered v ds) :
    Relates ds source target l ↔
      ∃ d, ds.find? (fun d => d.isBetween source target) = some d ∧ l ∈ d.links.pairs := by
  simp only [Relates, h.find?_eq_some_iff, and_assoc]

/-- The same relations, the same files. -/
theorem map_files_eq (h : Gathered v ds) (h' : Gathered v es)
    (hsame : ∀ source target l, Relates ds source target l ↔ Relates es source target l)
    (source target : String) :
    (ds.find? fun d => d.isBetween source target).map files =
      (es.find? fun d => d.isBetween source target).map files := by
  -- where one list has a difference, so has the other, and the versions say what its files are
  have hfound : ∀ {xs ys : List FileDiff} {p : FilePair}, Gathered v xs → Gathered v ys →
      (∀ l, Relates xs source target l → Relates ys source target l) →
      (xs.find? fun d => d.isBetween source target).map files = some p →
      (ys.find? fun d => d.isBetween source target).map files = some p := by
    intro xs ys p hxs hys hrel hp
    obtain ⟨d, hd, rfl⟩ := Option.map_eq_some_iff.1 hp
    have hdOf := hxs.isOf d (List.mem_of_find?_eq_some hd)
    obtain ⟨l, hl⟩ := List.exists_mem_of_ne_nil _ hdOf.nonempty
    obtain ⟨e, he, -⟩ := hys.relates_iff.1 (hrel l (hxs.relates_iff.2 ⟨d, hd, hl⟩))
    have heOf := hys.isOf e (List.mem_of_find?_eq_some he)
    have hdpaths := isBetween_iff.1 (hxs.find?_eq_some_iff.1 hd).2
    have hepaths := isBetween_iff.1 (hys.find?_eq_some_iff.1 he).2
    have hfiles : v.filePair source target = .ok d.files := hdpaths.1 ▸ hdpaths.2 ▸ hdOf.filePair_eq
    have hfiles' : v.filePair source target = .ok e.files := hepaths.1 ▸ hepaths.2 ▸ heOf.filePair_eq
    rw [he, Option.map_some, Except.ok.inj (hfiles.symm.trans hfiles')]
  apply Option.ext
  intro p
  exact ⟨hfound h h' fun l => (hsame source target l).1, hfound h' h fun l => (hsame source target l).2⟩

end Gathered

/-- Inserting one after the other adds up all relations. -/
theorem relates_foldl_insertInto (h : AllWellFormed ds) (hes : AllWellFormed es) :
    Relates (es.foldl insertInto ds) source target l ↔
      Relates ds source target l ∨ Relates es source target l := by
  induction es generalizing ds with
  | nil => simp
  | cons e es ih =>
    have he := hes e List.mem_cons_self
    have hrest : AllWellFormed es := fun x hx => hes x (List.mem_cons_of_mem e hx)
    rw [List.foldl_cons, ih (h.insertInto he) hrest, relates_insertInto h, relates_cons, or_assoc]

end FileDiff

/-! ### Outcomes -/

namespace Outcome

variable {config : AlignmentConfig} {v : Versions}

theorem gathered_collect {cs : List Contribution}
    (hcs : ∀ c ∈ cs, v.filePair c.files.sourcePath c.files.targetPath = .ok c.files) :
    FileDiff.Gathered v (collect config cs) := by
  refine (FileDiff.Gathered.nil v).foldl_record fun x hx => ?_
  rcases List.mem_append.1 hx with hx | hx
  · obtain ⟨c, hc, rfl⟩ := List.mem_map.1 hx
    exact hcs c hc
  · obtain ⟨c, hc, hx⟩ := List.mem_flatMap.1 hx
    obtain ⟨e, -, rfl⟩ := List.mem_map.1 hx
    exact hcs c hc

theorem filePair_eq_self {source target : String} {p : FilePair}
    (h : v.filePair source target = .ok p) : v.filePair p.sourcePath p.targetPath = .ok p := by
  obtain ⟨-, -, hs, ht⟩ := Versions.filePair_eq_ok_iff.1 h
  rw [hs, ht, h]

theorem gathered_withRefactorings {found : List Contribution} (ws : List Warning)
    (rs : List Refactoring)
    (hfound : ∀ c ∈ found, v.filePair c.files.sourcePath c.files.targetPath = .ok c.files) :
    FileDiff.Gathered v (withRefactorings config v found ws rs).diffs := by
  refine gathered_collect fun c hc => ?_
  rcases List.mem_append.1 hc with hc | hc
  · exact hfound c hc
  · obtain ⟨attempt, hattempt, hc⟩ := List.mem_flatMap.1 hc
    obtain ⟨r, -, rfl⟩ := List.mem_map.1 hattempt
    obtain ⟨source, target, hp, -⟩ := Refactoring.contribution_founded hc
    exact filePair_eq_self hp

theorem gathered_ofRefactorings (config : AlignmentConfig) (v : Versions) (rs : List Refactoring) :
    FileDiff.Gathered v (ofRefactorings config v rs).diffs :=
  gathered_withRefactorings [] rs fun _ hc => nomatch hc

theorem gathered_ofClassPair (config : AlignmentConfig) (v : Versions) (c : ClassPair) :
    FileDiff.Gathered v (ofClassPair config v c).diffs := by
  unfold ofClassPair
  cases hp : v.filePair c.before.sourceFile c.after.sourceFile with
  | error w => exact .nil v
  | ok p =>
    refine gathered_withRefactorings _ _ fun x hx => ?_
    obtain rfl := List.mem_singleton.1 hx
    exact filePair_eq_self hp

end Outcome

/-! ### Sets of differences -/

namespace DiffSet

/-- The difference found for two paths holds the link. -/
def Relates (s : DiffSet) (source target : String) (l : Link) : Prop :=
  ∃ d, s.get? source target = some d ∧ l ∈ d.links.pairs

theorem diffs_foldl_absorb (os : List Outcome) (s : DiffSet) :
    (os.foldl absorb s).diffs = (os.flatMap Outcome.diffs).foldl FileDiff.insertInto s.diffs := by
  induction os generalizing s with
  | nil => rfl
  | cons o os ih =>
    rw [List.foldl_cons, ih, List.flatMap_cons, List.foldl_append]
    rfl

theorem warnings_foldl_absorb (os : List Outcome) (s : DiffSet) :
    (os.foldl absorb s).warnings = s.warnings ++ os.flatMap Outcome.warnings := by
  induction os generalizing s with
  | nil => simp
  | cons o os ih =>
    rw [List.foldl_cons, ih, List.flatMap_cons, ← List.append_assoc]
    rfl

end DiffSet

end Counterpart
