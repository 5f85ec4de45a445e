import Counterpart.Outcome
import Counterpart.Proofs.FileDiff

/-!
# The relations of an outcome

`Outcome.Relates o source target l` says that an outcome links the ends of `l` in the files at two
paths. It holds exactly if something that was found there comes to `l`, be it at once or in the end
(`relates_collect`). What a pass comes to, `FilePair.settle`, goes through all lists of the model by
membership: nothing found earlier has a say.
-/

namespace Counterpart

/-! ### What findings come to -/

namespace FilePair

variable (config : AlignmentConfig) (p : FilePair)

/-- All links that findings come to, those of the expressions put off included. -/
def settle (f : Findings) : List Link :=
  f.links ++ f.deferred.flatMap fun l =>
    Alignment.simpleLinks config p.source p.target false l.1 l.2

/-- The links between two fragments, whether they are put off or not. -/
def fragmentLinks (f : FragmentPair) : List Link :=
  (p.resolve? f.before.location f.after.location).toList.flatMap fun l =>
    match f.kind with
    | .simple => Alignment.simpleLinks config p.source p.target false l.1 l.2
    | .composite => compositeLinks config p l

variable {config p} {l : Link}

@[simp] theorem settle_immediate (ls : List Link) : p.settle config ⟨ls, []⟩ = ls := by
  simp [settle]

theorem mem_settle_append {x y : Findings} :
    l ∈ p.settle config (x ++ y) ↔ l ∈ p.settle config x ∨ l ∈ p.settle config y := by
  simp only [settle, Findings.links_append, Findings.deferred_append, List.flatMap_append,
    List.mem_append]
  exact or_or_or_comm

theorem mem_settle_concat {α : Type} {g : α → Findings} {xs : List α} :
    l ∈ p.settle config (.concat (xs.map g)) ↔ ∃ x ∈ xs, l ∈ p.settle config (g x) := by
  induction xs with
  | nil => simp [Findings.concat]
  | cons x xs ih =>
    have hcons : Findings.concat ((x :: xs).map g) = g x ++ Findings.concat (xs.map g) := rfl
    rw [hcons, mem_settle_append, ih]
    simp

theorem self_mem_simpleLinks (t u : Tree) (a b : Nat) :
    (a, b) ∈ Alignment.simpleLinks config t u false a b := by
  rw [Alignment.simpleLinks, Bool.false_and]
  exact List.mem_cons_self

/-- Two simple fragments come to the same links now or later: they are linked to each other in
either case. -/
theorem mem_settle_simple {later : Bool} {e : Link} :
    l ∈ p.settle config (simpleFindings config p later e) ↔
      l ∈ Alignment.simpleLinks config p.source p.target false e.1 e.2 := by
  have hsame : l ∈ (if p.isSameKind e then [e] else []) →
      l ∈ Alignment.simpleLinks config p.source p.target false e.1 e.2 := by
    split
    · intro h
      obtain rfl := List.mem_singleton.1 h
      exact self_mem_simpleLinks p.source p.target l.1 l.2
    · exact fun h => nomatch h
  cases later <;>
  · simp only [settle, simpleFindings, Bool.false_eq_true, if_false, if_true, List.flatMap_nil,
      List.flatMap_cons, List.append_nil, List.mem_append]
    exact ⟨fun h => h.elim hsame id, .inr⟩

theorem mem_settle_fragment {f : FragmentPair} :
    l ∈ p.settle config (fragmentFindings config p f) ↔ l ∈ p.fragmentLinks config f := by
  unfold fragmentFindings fragmentLinks
  cases p.resolve? f.before.location f.after.location with
  | none => simp
  | some e =>
    cases f.kind with
    | simple => simp [mem_settle_simple]
    | composite => simp

/-! ### Bodies -/

theorem mem_settle_body {b : BodyPair} :
    l ∈ p.settle config (bodyFindings config p b) ↔
      l ∈ p.settle config (anonymousFindings config p b.anonymousClasses) ∨
        ∃ f ∈ b.fragments, l ∈ p.fragmentLinks config f := by
  obtain ⟨before, after, signature, matched, fragments, anonymous⟩ := b
  rw [bodyFindings, mem_settle_append, mem_settle_concat]
  simp only [mem_settle_fragment]

theorem mem_settle_anonymous {as : List AnonymousClassPair} :
    l ∈ p.settle config (anonymousFindings config p as) ↔
      ∃ a ∈ as, l ∈ p.fieldsLinks config a.attributes ∨
        l ∈ p.settle config (memberFindings config p a.members) := by
  induction as with
  | nil => simp [anonymousFindings]
  | cons a as ih =>
    obtain ⟨attributes, members⟩ := a
    rw [anonymousFindings, mem_settle_append, mem_settle_append, settle_immediate, ih]
    simp

theorem mem_settle_members {bs : List BodyPair} :
    l ∈ p.settle config (memberFindings config p bs) ↔
      ∃ b ∈ bs, l ∈ p.declarationLinks b ∨ l ∈ p.settle config (bodyFindings config p b) := by
  induction bs with
  | nil => simp [memberFindings]
  | cons b bs ih =>
    rw [memberFindings, mem_settle_append, mem_settle_append, settle_immediate, ih]
    simp

theorem mem_settle_operation {b : BodyPair} :
    l ∈ p.settle config (operationFindings config p b) ↔
      l ∈ p.declarationLinks b ∨ l ∈ p.settle config (bodyFindings config p b) := by
  rw [operationFindings, mem_settle_append, settle_immediate]

end FilePair

/-! ### Outcomes -/

/-- A contribution comes to the link in the files at two paths. -/
def Contribution.Adds (config : AlignmentConfig) (c : Contribution) (source target : String)
    (l : Link) : Prop :=
  c.files.sourcePath = source ∧ c.files.targetPath = target ∧ l ∈ c.files.settle config c.findings

/-- A refactoring adds the link in the files at two paths. -/
def Refactoring.Adds (config : AlignmentConfig) (v : Versions) (r : Refactoring)
    (source target : String) (l : Link) : Prop :=
  ∃ c ∈ (r.attempt config v).contributions, c.Adds config source target l

namespace Outcome

/-- An outcome links the ends of `l` in the files at two paths. -/
def Relates (o : Outcome) (source target : String) (l : Link) : Prop :=
  FileDiff.Relates o.diffs source target l

instance (o : Outcome) (source target : String) (l : Link) : Decidable (o.Relates source target l) :=
  inferInstanceAs (Decidable (∃ d ∈ o.diffs, d.isBetween source target = true ∧ l ∈ d.links.pairs))

variable {config : AlignmentConfig} {v : Versions} {source target : String} {l : Link}

/-- The order in which contributions came, and whether they were put off, does not matter. -/
theorem relates_collect {cs : List Contribution} :
    FileDiff.Relates (collect config cs) source target l ↔
      ∃ c ∈ cs, c.Adds config source target l := by
  rw [collect, FileDiff.relates_foldl_record FileDiff.allWellFormed_nil]
  simp only [FileDiff.relates_nil, false_or, List.mem_append, immediate, postponed, List.mem_map,
    List.mem_flatMap, Contribution.Adds, FilePair.settle]
  constructor
  · rintro ⟨x, ⟨c, hc, rfl⟩ | ⟨c, hc, e, he, rfl⟩, hs, ht, hl⟩
    · exact ⟨c, hc, hs, ht, .inl hl⟩
    · exact ⟨c, hc, hs, ht, .inr ⟨e, he, hl⟩⟩
  · rintro ⟨c, hc, hs, ht, hl | ⟨e, he, hl⟩⟩
    · exact ⟨_, .inl ⟨c, hc, rfl⟩, hs, ht, hl⟩
    · exact ⟨_, .inr ⟨c, hc, e, he, rfl⟩, hs, ht, hl⟩

theorem relates_withRefactorings {found : List Contribution} {ws : List Warning}
    {rs : List Refactoring} :
    (withRefactorings config v found ws rs).Relates source target l ↔
      (∃ c ∈ found, c.Adds config source target l) ∨
        ∃ r ∈ rs, r.Adds config v source target l := by
  rw [Relates, withRefactorings, relates_collect]
  simp only [List.mem_append, List.mem_flatMap, List.mem_map, or_and_right, exists_or,
    Refactoring.Adds]
  refine or_congr_right ⟨?_, ?_⟩
  · rintro ⟨c, ⟨_, ⟨r, hr, rfl⟩, hc⟩, hadd⟩
    exact ⟨r, hr, c, hc, hadd⟩
  · rintro ⟨r, hr, c, hc, hadd⟩
    exact ⟨c, ⟨_, ⟨r, hr, rfl⟩, hc⟩, hadd⟩

theorem relates_ofRefactorings {rs : List Refactoring} :
    (ofRefactorings config v rs).Relates source target l ↔
      ∃ r ∈ rs, r.Adds config v source target l := by
  rw [ofRefactorings, relates_withRefactorings]
  simp

/-- A class pair relates what is found in its own files, and what its refactorings add anywhere. -/
theorem relates_ofClassPair {c : ClassPair} :
    (ofClassPair config v c).Relates source target l ↔
      ∃ p, v.filePair c.before.sourceFile c.after.sourceFile = .ok p ∧
        ((p.sourcePath = source ∧ p.targetPath = target ∧
            l ∈ p.settle config (p.classFindings config c)) ∨
          ∃ r ∈ c.refactorings, r.Adds config v source target l) := by
  unfold ofClassPair
  cases v.filePair c.before.sourceFile c.after.sourceFile with
  | error w => simp [Relates]
  | ok p => simp [relates_withRefactorings, Contribution.Adds]

end Outcome

end Counterpart
