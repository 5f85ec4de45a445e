import Counterpart.Proofs.DiffSet.Index
import Counterpart.Proofs.FileDiff.Order
import Counterpart.Proofs.Project.Placement
import Counterpart.Proofs.Tree.Resolution
import Mathlib.Data.Finset.Card
import Mathlib.Data.Finset.Range

/-!
# What a project lists

`Project.diff` lists the differences of a project once for every two files, in the order in which links between
them were first found (`map_paths_diff`). Each of them is not empty and stands for two files of the versions,
and both ends of all its links are nodes of their trees (`isFaithful_of_mem_diff`): whatever was linked lies
within nodes that were found in these trees. So the numbers of a summary are what they seem to be: the numbers
of links and of nodes that no link ends at (`summary_eq`).
-/

namespace Counterpart

/-! ### Ends of links -/

namespace Tree

/-- The number of nodes of which a property does not hold, where those of which it holds are listed. -/
theorem countP_unlisted (t : Tree) {listed : Nat → Bool} {ns : List Nat}
    (hlisted : ∀ n, listed n = true ↔ n ∈ ns) (hns : ∀ n ∈ ns, n < t.count) :
    t.preOrder.countP (fun n => !listed n) = t.count - ns.toFinset.card := by
  have hnodup : (t.preOrder.filter fun n => !listed n).Nodup := (nodup_descendants t root).filter _
  have hrest : (t.preOrder.filter fun n => !listed n).toFinset = Finset.range t.count \ ns.toFinset := by
    ext n
    rw [List.mem_toFinset, List.mem_filter, mem_preOrder, Finset.mem_sdiff, Finset.mem_range,
      List.mem_toFinset, ← hlisted, Bool.not_eq_true', Bool.not_eq_true]
  have hsub : ns.toFinset ⊆ Finset.range t.count := fun n hn =>
    Finset.mem_range.2 (hns n (List.mem_toFinset.1 hn))
  rw [List.countP_eq_length_filter, ← List.toFinset_card_of_nodup hnodup, hrest,
    Finset.card_sdiff_of_subset hsub, Finset.card_range]

end Tree

theorem Reading.lt_count_of_node? {reading : Reading} {x : Location} {t : Tree} {n : Nat}
    (h : reading.node? x t = some n) : n < t.count := by
  cases reading with
  | asGiven => exact Tree.lt_count_of_resolve h
  | ofKind k => exact Tree.lt_count_of_resolve h
  | asDeclaration =>
    obtain ⟨d, hd, hparent⟩ := Option.bind_eq_some_iff.1 h
    exact Nat.lt_trans (Tree.lt_of_parent hparent) (Tree.lt_count_of_resolve hd)

/-- Both ends of a link are nodes of the trees. -/
def IsBetweenNodes (t u : Tree) (l : Link) : Prop :=
  l.1 < t.count ∧ l.2 < u.count

section Ends

variable {v : Versions} {source target : String} {t u : Tree} {l : Link}

theorem IsBetweenNodes.of_within {a b : Nat} (ha : a < t.count) (hb : b < u.count)
    (h : t.LinkWithin u (a, b) l) : IsBetweenNodes t u l :=
  ⟨Tree.lt_count_of_mem_descendants ha h.1, Tree.lt_count_of_mem_descendants hb h.2⟩

theorem Correspondence.Justifies.isBetweenNodes {x : Correspondence} (h : x.Justifies v source target l)
    (ht : v.before.get? source = some t) (hu : v.after.get? target = some u) :
    IsBetweenNodes t u l := by
  obtain ⟨-, -, t', u', a, b, ht', hu', ha, hb, hl⟩ := h
  obtain rfl := Option.some.inj (ht.symm.trans ht')
  obtain rfl := Option.some.inj (hu.symm.trans hu')
  exact .of_within (Reading.lt_count_of_node? ha) (Reading.lt_count_of_node? hb) hl

theorem ClassPair.Frame.isBetweenNodes {c : ClassPair} (h : c.Frame t u l) : IsBetweenNodes t u l := by
  have hchild : ∀ {s : Tree} {p : Nat → Bool} {n : Nat}, (s.children Tree.root).find? p = some n →
      n < s.count := fun hn =>
    Tree.lt_count_of_parent (Tree.mem_children.1 (List.mem_of_find?_eq_some hn))
  cases h with
  | roots => exact ⟨t.root_lt_count, u.root_lt_count⟩
  | package ha hb hl => exact .of_within (hchild ha) (hchild hb) hl
  | imports _ ha hb hl => exact .of_within (hchild ha) (hchild hb) hl

end Ends

namespace Project

variable {config : ProjectConfig} {p : Project} {source target : String} {l : Link}

/-- Whatever a project relates is a pair of nodes of the two files. -/
theorem isBetweenNodes_of_relates {t u : Tree} (h : (p.diff config).Relates source target l)
    (ht : p.versions.before.get? source = some t) (hu : p.versions.after.get? target = some u) :
    IsBetweenNodes t u l := by
  obtain ⟨o, ho, hrel⟩ := relates_diff.1 h
  rcases List.mem_append.1 ho with ho | ho
  · obtain ⟨c, -, rfl⟩ := List.mem_map.1 ho
    rcases Outcome.ofClassPair_justified hrel with ⟨-, -, t', u', ht', hu', hframe⟩ | ⟨x, -, hx⟩
    · obtain rfl := Option.some.inj (ht.symm.trans ht')
      obtain rfl := Option.some.inj (hu.symm.trans hu')
      exact hframe.isBetweenNodes
    · exact hx.isBetweenNodes ht hu
  · obtain rfl := List.mem_singleton.1 ho
    obtain ⟨r, -, x, -, hx⟩ := Outcome.ofRefactorings_justified hrel
    exact hx.isBetweenNodes ht hu

end Project

/-! ### The order of the differences -/

/-- What a class pair contributes: what is found in its own files, and what its refactorings add. -/
def ClassPair.contributions (config : AlignmentConfig) (v : Versions) (c : ClassPair) : List Contribution :=
  (v.filePair c.before.sourceFile c.after.sourceFile).toOption.toList.flatMap fun files =>
    ⟨files, files.classFindings config c⟩ ::
      (c.refactorings.map (Refactoring.attempt config v)).flatMap Attempt.contributions

theorem Outcome.diffs_ofClassPair (config : AlignmentConfig) (v : Versions) (c : ClassPair) :
    (ofClassPair config v c).diffs = collect config (c.contributions config v) := by
  unfold ofClassPair ClassPair.contributions
  cases v.filePair c.before.sourceFile c.after.sourceFile with
  | error w => rfl
  | ok files =>
    show collect config _ = collect config ([files].flatMap _)
    rw [List.flatMap_singleton]
    rfl

/-- The files of all links that contributions come to, in the order in which they are found. -/
def Outcome.sightings (config : AlignmentConfig) (cs : List Contribution) : List (String × String) :=
  FileDiff.sightings (immediate cs ++ postponed config cs)

theorem Outcome.map_paths_collect (config : AlignmentConfig) (cs : List Contribution) :
    (collect config cs).map FileDiff.paths = (sightings config cs).foldl note [] :=
  FileDiff.map_paths_foldl_record _ []

namespace Project

/-- What the reconciliations of a project come to, one after the other. -/
def contributions (config : ProjectConfig) (p : Project) : List (List Contribution) :=
  let classes := p.commonClasses ++ if config.includeRenamed then p.renamedClasses else []
  classes.map (ClassPair.contributions config.alignment p.versions) ++
    [(p.refactorings.map (Refactoring.attempt config.alignment p.versions)).flatMap Attempt.contributions]

/-- The files of all links of a project, in the order in which they are found. -/
def sightings (config : ProjectConfig) (p : Project) : List (String × String) :=
  (p.contributions config).flatMap (Outcome.sightings config.alignment)

theorem flatMap_diffs_outcomes (config : ProjectConfig) (p : Project) :
    (p.outcomes config).flatMap Outcome.diffs =
      (p.contributions config).flatMap (Outcome.collect config.alignment) := by
  unfold outcomes contributions
  dsimp only
  rw [List.flatMap_append, List.flatMap_append, List.flatMap_map, List.flatMap_map]
  simp only [Outcome.diffs_ofClassPair]
  rfl

/-- The differences stand in the order in which links between their files were first found. -/
theorem map_paths_diff (config : ProjectConfig) (p : Project) :
    (p.diff config).diffs.map FileDiff.paths = (p.sightings config).eraseDups := by
  have hcollect : ∀ (css : List (List Contribution)) (ks : List (String × String)),
      ((css.flatMap (Outcome.collect config.alignment)).map FileDiff.paths).foldl note ks =
        (css.flatMap (Outcome.sightings config.alignment)).foldl note ks := by
    intro css
    induction css with
    | nil => exact fun _ => rfl
    | cons cs css ih =>
      intro ks
      rw [List.flatMap_cons, List.flatMap_cons, List.map_append, List.foldl_append, List.foldl_append,
        Outcome.map_paths_collect, foldl_note_foldl, ih]
  rw [diff, DiffSet.diffs_foldl_absorb, FileDiff.map_paths_foldl_insertInto, flatMap_diffs_outcomes, hcollect]
  exact foldl_note_nil (p.sightings config)

end Project

/-! ### Summaries -/

namespace LinkSet.WellFormed

variable {x : LinkSet}

theorem hasSource_iff (h : x.WellFormed) {n : Nat} : x.hasSource n = true ↔ n ∈ x.pairs.map Prod.fst := by
  rw [hasSource, Bool.not_eq_true', h.targets_eq]
  simp

theorem hasTarget_iff (h : x.WellFormed) {n : Nat} : x.hasTarget n = true ↔ n ∈ x.pairs.map Prod.snd := by
  rw [hasTarget, Bool.not_eq_true', h.sources_eq]
  simp

end LinkSet.WellFormed

namespace FileDiff

/-- A difference between two files of the versions: it holds some link, and all its links are between nodes
of the two trees. -/
structure IsFaithful (v : Versions) (d : FileDiff) : Prop where
  source_eq : v.before.get? d.files.sourcePath = some d.files.source
  target_eq : v.after.get? d.files.targetPath = some d.files.target
  nonempty : d.links.pairs ≠ []
  isBetweenNodes : ∀ l ∈ d.links.pairs, IsBetweenNodes d.files.source d.files.target l

/-- The numbers of links and of nodes at which no link ends. -/
theorem summary_eq {d : FileDiff} (hwell : d.links.WellFormed)
    (hnodes : ∀ l ∈ d.links.pairs, IsBetweenNodes d.files.source d.files.target l) :
    d.summary =
      { sourcePath := d.files.sourcePath
        targetPath := d.files.targetPath
        linked := d.links.pairs.toFinset.card
        unlinkedSource := d.files.source.count - (d.links.pairs.map Prod.fst).toFinset.card
        unlinkedTarget := d.files.target.count - (d.links.pairs.map Prod.snd).toFinset.card } := by
  have hlinked : d.links.size = d.links.pairs.toFinset.card := by
    rw [List.toFinset_card_of_nodup hwell.nodup]
    rfl
  have hsource : d.unlinkedSourceCount =
      d.files.source.count - (d.links.pairs.map Prod.fst).toFinset.card := by
    refine Tree.countP_unlisted _ (fun n => hwell.hasSource_iff) fun n hn => ?_
    obtain ⟨l, hl, rfl⟩ := List.mem_map.1 hn
    exact (hnodes l hl).1
  have htarget : d.unlinkedTargetCount =
      d.files.target.count - (d.links.pairs.map Prod.snd).toFinset.card := by
    refine Tree.countP_unlisted _ (fun n => hwell.hasTarget_iff) fun n hn => ?_
    obtain ⟨l, hl, rfl⟩ := List.mem_map.1 hn
    exact (hnodes l hl).2
  rw [summary, hlinked, hsource, htarget]

end FileDiff

namespace Project

theorem isFaithful_of_mem_diff {config : ProjectConfig} {p : Project} {d : FileDiff}
    (hd : d ∈ (p.diff config).diffs) : d.IsFaithful p.versions := by
  have hgathered := gathered_diff config p
  have hof := hgathered.isOf d hd
  obtain ⟨hs, ht, -, -⟩ := Versions.filePair_eq_ok_iff.1 hof.filePair_eq
  refine ⟨hs, ht, hof.nonempty, fun l hl => ?_⟩
  have hfind := hgathered.find?_eq_some_iff.2 ⟨hd, FileDiff.isBetween_iff.2 ⟨rfl, rfl⟩⟩
  have hrel : (p.diff config).Relates d.files.sourcePath d.files.targetPath l := ⟨d, hfind, hl⟩
  exact isBetweenNodes_of_relates hrel hs ht

/-- What a project lists: the files of every difference once, in the order in which links between them were
first found; whether differences are searched for or looked up in an index, those listed are found, and no
others; each of them is faithful to the versions; and the summaries count distinct links and the nodes that
no link ends at. -/
theorem diff_listing (config : ProjectConfig) (p : Project) :
    let s := p.diff config
    let indexed := ((p.outcomes config).flatMap Outcome.diffs).foldl DiffSet.Indexed.insert {}
    ((s.diffs.map FileDiff.paths).Nodup ∧ s.diffs.map FileDiff.paths = (p.sightings config).eraseDups) ∧
    (indexed.diffs = s.diffs ∧ ∀ source target, indexed.get? source target = s.get? source target) ∧
    (∀ source target d, s.get? source target = some d ↔
      d ∈ s.diffs ∧ d.files.sourcePath = source ∧ d.files.targetPath = target) ∧
    (∀ d ∈ s.diffs, d.IsFaithful p.versions) ∧
    s.summaries = s.diffs.map fun d =>
      { sourcePath := d.files.sourcePath
        targetPath := d.files.targetPath
        linked := d.links.pairs.toFinset.card
        unlinkedSource := d.files.source.count - (d.links.pairs.map Prod.fst).toFinset.card
        unlinkedTarget := d.files.target.count - (d.links.pairs.map Prod.snd).toFinset.card } := by
  have hgathered := gathered_diff config p
  have hdiffs : (p.diff config).diffs =
      ((p.outcomes config).flatMap Outcome.diffs).foldl FileDiff.insertInto [] :=
    DiffSet.diffs_foldl_absorb _ {}
  obtain ⟨hlisted, hfound⟩ := DiffSet.Indexed.foldl_insert_eq ((p.outcomes config).flatMap Outcome.diffs)
  refine ⟨⟨hgathered.distinct, map_paths_diff config p⟩, ⟨hlisted.trans hdiffs.symm, fun source target => ?_⟩,
    fun source target d => ?_, fun d => isFaithful_of_mem_diff, List.map_congr_left fun d hd => ?_⟩
  · rw [hfound, ← hdiffs]
    rfl
  · rw [← FileDiff.isBetween_iff]
    exact hgathered.find?_eq_some_iff
  · exact FileDiff.summary_eq (hgathered.allWellFormed d hd) (isFaithful_of_mem_diff hd).isBetweenNodes

end Project

end Counterpart
