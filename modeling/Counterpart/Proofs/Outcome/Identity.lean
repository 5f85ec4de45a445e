import Counterpart.Proofs.DiffSet
import Counterpart.Proofs.FilePair.Diagonal

/-!
# Identical versions

When nothing changed, neither the files nor what the model says about a class, reconciliation links a node
to its own copy or not at all, and all of a simple fragment is linked (`identity_reconciled`).
-/

namespace Counterpart

/-! ### Link sets on the diagonal -/

theorem Diagonal.filter_eq {ls : List Link} (h : Diagonal ls) (hnodup : ls.Nodup) {P : Link → Bool}
    {n : Nat} (hP : ∀ m, P (m, m) = (m == n)) :
    ls.filter P = if (n, n) ∈ ls then [(n, n)] else [] := by
  have hsame : ls.filter P = ls.filter (· == (n, n)) := by
    refine List.filter_congr fun l hl => ?_
    obtain ⟨a, b⟩ := l
    obtain rfl : a = b := h (a, b) hl
    rw [hP, Bool.eq_iff_iff]
    simp
  rw [hsame, List.filter_beq]
  split
  · next hmem => rw [List.count_eq_one_of_mem hnodup hmem, List.replicate_one]
  · next hnot => rw [List.count_eq_zero_of_not_mem hnot, List.replicate_zero]

namespace LinkSet.WellFormed

variable {x : LinkSet}

/-- On the diagonal a node has itself as its counterpart, or none. -/
theorem targets_of_diagonal (h : x.WellFormed) (hx : Diagonal x.pairs) (n : Nat) :
    x.targets n = if (n, n) ∈ x.pairs then [n] else [] := by
  rw [h.targets_eq, hx.filter_eq h.nodup fun _ => rfl, apply_ite (List.map Prod.snd)]
  rfl

theorem sources_of_diagonal (h : x.WellFormed) (hx : Diagonal x.pairs) (n : Nat) :
    x.sources n = if (n, n) ∈ x.pairs then [n] else [] := by
  rw [h.sources_eq, hx.filter_eq h.nodup fun _ => rfl, apply_ite (List.map Prod.fst)]
  rfl

end LinkSet.WellFormed

namespace Outcome

variable {config : AlignmentConfig} {v : Versions} {c : ClassPair} {source target : String} {l : Link}

theorem filePair_twice (hv : ∀ path, v.before.get? path = v.after.get? path) {path : String} {t : Tree}
    (ht : v.before.get? path = some t) : v.filePair path path = .ok (.twice path t) := by
  rw [Versions.filePair, ← hv path, ht]
  rfl

/-- Without refactorings a class that belongs to itself relates what is found in its file. -/
theorem relates_identity (hv : ∀ path, v.before.get? path = v.after.get? path) (hc : c.IsIdentity) :
    (ofClassPair config v c).Relates source target l ↔
      source = c.before.sourceFile ∧ target = c.before.sourceFile ∧
        ∃ t, v.before.get? c.before.sourceFile = some t ∧
          l ∈ (FilePair.twice c.before.sourceFile t).settle config
            ((FilePair.twice c.before.sourceFile t).classFindings config c) := by
  rw [relates_ofClassPair, ← hc.descriptor, hc.refactorings]
  constructor
  · rintro ⟨p, hp, ⟨rfl, rfl, hl⟩ | ⟨r, hr, -⟩⟩
    · obtain ⟨t, ht⟩ : ∃ t, v.before.get? c.before.sourceFile = some t :=
        ⟨_, (Versions.filePair_eq_ok_iff.1 hp).1⟩
      obtain rfl := Except.ok.inj (hp.symm.trans (filePair_twice hv ht))
      exact ⟨rfl, rfl, t, ht, hl⟩
    · cases hr
  · rintro ⟨rfl, rfl, t, ht, hl⟩
    exact ⟨_, filePair_twice hv ht, .inl ⟨rfl, rfl, hl⟩⟩

/-- The differences of a class that belongs to itself are between a file and itself, and on the
diagonal. -/
theorem diagonal_of_identity (hv : ∀ path, v.before.get? path = v.after.get? path) (hc : c.IsIdentity)
    {d : FileDiff} (hd : d ∈ (ofClassPair config v c).diffs) :
    (∃ path t, d.files = .twice path t) ∧ Diagonal d.links.pairs := by
  have hrelates : ∀ l ∈ d.links.pairs,
      (ofClassPair config v c).Relates d.files.sourcePath d.files.targetPath l := fun l hl =>
    ⟨d, hd, FileDiff.isBetween_iff.2 ⟨rfl, rfl⟩, hl⟩
  have hof := (gathered_ofClassPair config v c).isOf d hd
  constructor
  · -- there is some link, and it tells where it was found
    obtain ⟨l, hl⟩ := List.exists_mem_of_ne_nil _ hof.nonempty
    obtain ⟨hs, ht, t, htree, -⟩ := (relates_identity hv hc).1 (hrelates l hl)
    have hfiles := hof.filePair_eq
    rw [hs, ht, filePair_twice hv htree] at hfiles
    exact ⟨_, t, (Except.ok.inj hfiles).symm⟩
  · intro l hl
    obtain ⟨-, -, t, -, hl⟩ := (relates_identity hv hc).1 (hrelates l hl)
    exact FilePair.classFindings_diagonal config _ t hc l hl

/-- All of a simple fragment is linked to itself, however deep it stands. -/
theorem simple_fragment_relates (hv : ∀ path, v.before.get? path = v.after.get? path)
    (hc : c.IsIdentity) {b : BodyPair} (hb : b ∈ c.bodies) {f : FragmentPair} (hf : b.Holds f)
    (hkind : f.kind = .simple) (hfile : f.before.location.file = c.before.sourceFile) {t : Tree}
    (ht : v.before.get? c.before.sourceFile = some t) {n m : Nat}
    (hn : f.before.location.resolve t = some n) (hm : m ∈ t.descendants n) :
    (ofClassPair config v c).Relates c.before.sourceFile c.before.sourceFile (m, m) := by
  refine (relates_identity hv hc).2 ⟨rfl, rfl, t, ht, ?_⟩
  have hfound : (FilePair.twice c.before.sourceFile t).resolve? f.before.location f.after.location =
      some (n, n) := by
    rw [← hf.before_eq (hc.bodies b hb), FilePair.resolve?, FilePair.resolveBy?, if_pos ⟨hfile, hfile⟩]
    exact both?_eq_some_iff.2 ⟨hn, hn⟩
  have hlinks : (m, m) ∈ (FilePair.twice c.before.sourceFile t).fragmentLinks config f := by
    rw [FilePair.fragmentLinks, hfound, hkind]
    refine List.mem_append_left _ ?_
    show (m, m) ∈ Alignment.simpleLinks config t t false n n
    rw [Alignment.mem_simpleLinks_iff_mem_overlay config rfl rfl]
    obtain ⟨y, hy⟩ := Tree.exists_mem_overlay (t := t) (u := t) rfl hm
    obtain rfl : m = y := t.overlay_diagonal n _ hy
    exact hy
  unfold FilePair.classFindings
  rw [FilePair.mem_settle_append, FilePair.mem_settle_members]
  exact .inr ⟨b, hb, .inr (FilePair.mem_settle_body_of_holds hf hlinks)⟩

/-- Let both versions have the same files, and let a class belong to itself with all that is listed for
it. Then every difference is between a file and itself, each node has itself as its only counterpart or
has none, and each node of a simple fragment that is found in the file of the class has one. -/
theorem identity_reconciled (config : AlignmentConfig) (v : Versions) (c : ClassPair)
    (hv : ∀ path, v.before.get? path = v.after.get? path) (hc : c.IsIdentity) :
    (∀ d ∈ (ofClassPair config v c).diffs,
      d.files.sourcePath = d.files.targetPath ∧ d.files.source = d.files.target ∧
      (∀ l ∈ d.links.pairs, l.1 = l.2 ∧ d.files.source.kind l.1 = d.files.target.kind l.2 ∧
        d.files.source.label l.1 = d.files.target.label l.2) ∧
      ∀ n, (d.links.targets n).length ≤ 1 ∧ (d.links.sources n).length ≤ 1) ∧
    ∀ b ∈ c.bodies, ∀ f, b.Holds f → f.kind = .simple →
      f.before.location.file = c.before.sourceFile →
      ∀ t, v.before.get? c.before.sourceFile = some t →
      ∀ n, f.before.location.resolve t = some n → ∀ m ∈ t.descendants n,
        ∃ d ∈ (ofClassPair config v c).diffs,
          d.isBetween c.before.sourceFile c.before.sourceFile = true ∧
          d.links.targets m = [m] ∧ d.links.sources m = [m] := by
  constructor
  · intro d hd
    obtain ⟨⟨path, t, hfiles⟩, hdiagonal⟩ := diagonal_of_identity hv hc hd
    have hwell := (gathered_ofClassPair config v c).allWellFormed d hd
    rw [hfiles]
    refine ⟨rfl, rfl, fun l hl => ?_, fun n => ?_⟩
    · rw [hdiagonal l hl]
      exact ⟨rfl, rfl, rfl⟩
    · rw [hwell.targets_of_diagonal hdiagonal, hwell.sources_of_diagonal hdiagonal]
      split <;> simp
  · intro b hb f hf hkind hfile t ht n hn m hm
    obtain ⟨d, hd, hbetween, hl⟩ := simple_fragment_relates hv hc hb hf hkind hfile ht hn hm
    have hdiagonal := (diagonal_of_identity hv hc hd).2
    have hwell := (gathered_ofClassPair config v c).allWellFormed d hd
    refine ⟨d, hd, hbetween, ?_, ?_⟩
    · rw [hwell.targets_of_diagonal hdiagonal, if_pos hl]
    · rw [hwell.sources_of_diagonal hdiagonal, if_pos hl]

/-- A file with two equal statements, of which nothing changed. -/
def unchanged : Versions where
  before := .ofList [("A", Alignment.twinsInFile)]
  after := .ofList [("A", Alignment.twinsInFile)]

/-- The second of the two statements. -/
def secondTwin : FragmentPair where
  before := { location := { file := "A", span := ⟨5, 8⟩ } }
  after := { location := { file := "A", span := ⟨5, 8⟩ } }

def holdingTwin : BodyPair where
  fragments := [secondTwin]

/-- A class with that statement in a method of an anonymous class. -/
def unchangedClass : ClassPair where
  before := { location := { file := "A" } }
  after := { location := { file := "A" } }
  bodies := [{ anonymousClasses := [{ members := [holdingTwin] }] }]

theorem unchangedClass_isIdentity : unchangedClass.IsIdentity := by
  have hholding : holdingTwin.IsIdentity :=
    .intro rfl (by simp [holdingTwin]) (by simp [holdingTwin]) (by simp [holdingTwin, secondTwin])
      (by simp [holdingTwin])
  have hclass : AnonymousClassPair.IsIdentity { members := [holdingTwin] } :=
    .intro (by simp) (by simpa using hholding)
  have hbody : BodyPair.IsIdentity { anonymousClasses := [{ members := [holdingTwin] }] } :=
    .intro rfl (by simp) (by simp) (by simp) (by simpa using hclass)
  constructor <;> simp [unchangedClass, hbody]

/-- The name in the second statement is linked to its own copy, not to the equal name before it. -/
theorem unchangedClass_reconciled :
    Alignment.twinsInFile.label 3 = Alignment.twinsInFile.label 5 ∧
    (∀ d ∈ (ofClassPair {} unchanged unchangedClass).diffs, ∀ l ∈ d.links.pairs, l.1 = l.2) ∧
    ∃ d ∈ (ofClassPair {} unchanged unchangedClass).diffs,
      d.isBetween "A" "A" = true ∧ d.links.targets 5 = [5] ∧ d.links.sources 5 = [5] := by
  obtain ⟨hlinks, hsimple⟩ := identity_reconciled {} unchanged unchangedClass (fun _ => rfl)
    unchangedClass_isIdentity
  refine ⟨by decide +kernel, fun d hd l hl => ((hlinks d hd).2.2.1 l hl).1, ?_⟩
  exact hsimple _ List.mem_cons_self secondTwin
    (.nested List.mem_cons_self List.mem_cons_self (.here List.mem_cons_self)) rfl rfl
    Alignment.twinsInFile rfl 4 (by decide +kernel) 5 (by decide +kernel)

end Outcome

end Counterpart
