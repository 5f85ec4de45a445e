import Counterpart.Proofs.Outcome.Justification
import Counterpart.Proofs.Outcome.Slot
import Counterpart.Proofs.Tree.Positions

/-!
# Declarators of aligned fields

Two fields are given by their declarators, which may be any two of the declarators of their declarations.
Where the declarations differ in more than names, the given declarators and their names are linked.
Where they agree, the declarations are laid over each other and nothing else is done: then the given
declarators are linked only if they stand at the same position (`FilePair.KeepsDeclarators`). So the fields
of `int a, b` and `int b, a` are linked crosswise, whichever of them are said to correspond.

`aligned_declarators` states this of one field alignment and of the outcomes of all class pairs and
refactorings that come to it; `ClassPair.fieldPairs` and `Refactoring.fieldPairs` list the pairs of
attributes that they align.
-/

namespace Counterpart

namespace Tree

variable {t u : Tree} {a b x y : Nat}

/-- Every place of an overlay but its top lies directly under another one. -/
theorem mem_overlay_cases {l : Link} (h : l ∈ t.overlay u a b) :
    l = (a, b) ∨ ∃ k ∈ t.overlay u a b, l ∈ (t.children k.1).zip (u.children k.2) := by
  induction a using children_induction (t := t) generalizing b with
  | step a ih =>
    rcases mem_overlay_iff.1 h with rfl | ⟨⟨c, d⟩, hcd, hl⟩
    · exact .inl rfl
    · right
      rcases ih c (List.of_mem_zip hcd).1 hl with rfl | ⟨k, hk, hlk⟩
      · exact ⟨(a, b), self_mem_overlay t u a b, hcd⟩
      · exact ⟨k, mem_overlay_iff.2 (.inr ⟨(c, d), hcd, hk⟩), hlk⟩

theorem mem_zip_children_of_position_eq {p q : Nat} (hx : t.parent x = some p)
    (hy : u.parent y = some q) (h : t.position x = u.position y) :
    (x, y) ∈ (t.children p).zip (u.children q) := by
  have hx' := List.idxOf_lt_length_iff.2 (mem_children.2 hx)
  have hy' := List.idxOf_lt_length_iff.2 (mem_children.2 hy)
  rw [position_eq_idxOf hx, position_eq_idxOf hy] at h
  refine List.mem_iff_getElem.2 ⟨(t.children p).idxOf x, ?_, ?_⟩
  · rw [List.length_zip]
    omega
  · rw [List.getElem_zip, List.getElem_idxOf, Prod.mk.injEq]
    simp only [h, List.getElem_idxOf, and_self]

/-- Below the top of an overlay, two nodes are joined exactly if their parents are and they have the same
position. -/
theorem mem_overlay_iff_parents {p q : Nat} (hx : t.parent x = some p) (hy : u.parent y = some q)
    (ha : x ≠ a) :
    (x, y) ∈ t.overlay u a b ↔ (p, q) ∈ t.overlay u a b ∧ t.position x = u.position y := by
  constructor
  · intro h
    rcases mem_overlay_cases h with heq | ⟨⟨p', q'⟩, hk, hzip⟩
    · exact absurd (congrArg Prod.fst heq) ha
    · obtain ⟨hxp, hyq⟩ := List.of_mem_zip hzip
      obtain rfl := Option.some.inj (hx.symm.trans (mem_children.1 hxp))
      obtain rfl := Option.some.inj (hy.symm.trans (mem_children.1 hyq))
      exact ⟨hk, position_eq_of_mem_zip hzip⟩
  · rintro ⟨hpq, hpos⟩
    exact mem_overlay_trans hpq
      (mem_overlay_iff.2 (.inr ⟨(x, y), mem_zip_children_of_position_eq hx hy hpos, self_mem_overlay ..⟩))

end Tree

/-! ### One field alignment -/

namespace FilePair

open Counterpart.Tree

variable {config : AlignmentConfig} {p : FilePair} {declaration declarator : Link} {x y : Attribute}

/-- The given declarators are looked at: the declarations differ in more than names, or the declarators stand
at the same position. -/
def KeepsDeclarators (p : FilePair) (declaration declarator : Link) : Prop :=
  p.isSameDeclaration declaration = true →
    p.source.position declarator.1 = p.target.position declarator.2

/-- The relation joins two declarators and their names, the first children. -/
def JoinsDeclarators (p : FilePair) (declarator : Link) (R : Link → Prop) : Prop :=
  R declarator ∧ ∀ l ∈ p.firstChildLink declarator, R l

theorem mem_firstChildLink {l : Link} :
    l ∈ p.firstChildLink declarator ↔
      p.source.child? declarator.1 0 = some l.1 ∧ p.target.child? declarator.2 0 = some l.2 := by
  rw [firstChildLink, Option.mem_toList]
  exact both?_eq_some_iff

/-- In an overlay of two declarations, declarators and their names are joined by position. -/
theorem mem_overlay_declarator (hs : p.source.parent declarator.1 = some declaration.1)
    (ht : p.target.parent declarator.2 = some declaration.2) {l : Link}
    (hl : l = declarator ∨ l ∈ p.firstChildLink declarator) :
    l ∈ p.overlay declaration ↔
      p.source.position declarator.1 = p.target.position declarator.2 := by
  have hlt := lt_of_parent hs
  have hself : declarator ∈ p.overlay declaration ↔
      p.source.position declarator.1 = p.target.position declarator.2 := by
    rw [overlay, show declarator = (declarator.1, declarator.2) from rfl,
      mem_overlay_iff_parents hs ht (Nat.ne_of_gt hlt)]
    exact and_iff_right (self_mem_overlay ..)
  rcases hl with rfl | hl
  · exact hself
  · obtain ⟨hc, hd⟩ := mem_firstChildLink.1 hl
    have hlt' := lt_of_parent (parent_of_child? hc)
    rw [← hself, overlay, show l = (l.1, l.2) from rfl,
      mem_overlay_iff_parents (parent_of_child? hc) (parent_of_child? hd) (by omega)]
    exact and_iff_left ((position_of_child? hc).trans (position_of_child? hd).symm)

/-- The locations of two attributes denote declarators, which lie in declarations. -/
structure Declares (p : FilePair) (x y : Attribute) (declaration declarator : Link) : Prop where
  found : p.resolveAs? x.location y.location Kind.variableDeclarationFragment = some declarator
  source_parent : p.source.parent declarator.1 = some declaration.1
  target_parent : p.target.parent declarator.2 = some declaration.2

theorem Declares.fieldLinks_eq (h : p.Declares x y declaration declarator) :
    p.fieldLinks config x y = if p.isSameDeclaration declaration then p.overlay declaration
      else changedFieldLinks config p declaration declarator x y := by
  have hboth : both? (p.source.parent declarator.1) (p.target.parent declarator.2) =
      some declaration := both?_eq_some_iff.2 ⟨h.source_parent, h.target_parent⟩
  rw [fieldLinks, h.found]
  dsimp only
  rw [hboth]

theorem Declares.declaration_mem (h : p.Declares x y declaration declarator) :
    declaration ∈ p.fieldLinks config x y := by
  rw [h.fieldLinks_eq]
  split
  · exact self_mem_overlay ..
  · exact List.mem_cons_self

/-- Field alignment links the given declarators, and their names, exactly if it looks at them. -/
theorem Declares.mem_fieldLinks_iff (h : p.Declares x y declaration declarator) {l : Link}
    (hl : l = declarator ∨ l ∈ p.firstChildLink declarator) :
    l ∈ p.fieldLinks config x y ↔ p.KeepsDeclarators declaration declarator := by
  rw [h.fieldLinks_eq, KeepsDeclarators]
  split
  · next hsame =>
    rw [mem_overlay_declarator h.source_parent h.target_parent hl]
    exact ⟨fun hpos _ => hpos, fun hkeep => hkeep hsame⟩
  · next hsame =>
    refine ⟨fun _ hsame' => absurd hsame' hsame, fun _ => ?_⟩
    simp only [changedFieldLinks, List.mem_cons, List.mem_append]
    rcases hl with rfl | hl
    · exact .inr (.inl (.inl (.inr (.inl rfl))))
    · exact .inr (.inr hl)

/-- What field alignment is sure to add to a relation that takes in all its links. -/
theorem Declares.joins (config : AlignmentConfig) (h : p.Declares x y declaration declarator)
    {R : Link → Prop} (hR : ∀ l ∈ p.fieldLinks config x y, R l) :
    R declaration ∧
      (p.KeepsDeclarators declaration declarator → p.JoinsDeclarators declarator R) :=
  ⟨hR _ h.declaration_mem, fun hkeep => ⟨hR _ ((h.mem_fieldLinks_iff (.inl rfl)).2 hkeep),
    fun l hl => hR l ((h.mem_fieldLinks_iff (.inr hl)).2 hkeep)⟩⟩

end FilePair

/-! ### The fields that come to be aligned -/

mutual

/-- The fields of the anonymous classes within two bodies, at any depth. -/
def BodyPair.fields : BodyPair → List (Attribute × Attribute)
  | { anonymousClasses, .. } => fieldsOfAnonymous anonymousClasses

/-- The fields of anonymous classes and of what is within them. -/
def fieldsOfAnonymous : List AnonymousClassPair → List (Attribute × Attribute)
  | [] => []
  | { attributes, members } :: rest =>
    attributes ++ fieldsOfMembers members ++ fieldsOfAnonymous rest

/-- The fields of the anonymous classes within several bodies. -/
def fieldsOfMembers : List BodyPair → List (Attribute × Attribute)
  | [] => []
  | b :: rest => b.fields ++ fieldsOfMembers rest

end

variable {config : AlignmentConfig} {v : Versions}

/-- The fields that a refactoring aligns, each with the files in which it does. -/
def Refactoring.fieldPairs (v : Versions) : Refactoring → List (FilePair × Attribute × Attribute)
  | relocateAttribute _ old new | renameAttribute old new =>
    (v.filePairOf old.location new.location).toOption.toList.map fun p => (p, old, new)
  | relocateOperation _ old new body =>
    (v.filePairOf old.location new.location).toOption.toList.flatMap fun p =>
      body.fields.map fun f => (p, f)
  | shareBody _ body =>
    (v.filePairOf body.before.location body.after.location).toOption.toList.flatMap fun p =>
      body.fields.map fun f => (p, f)
  | _ => []

/-- The fields that a class pair aligns in its own files. Those of the classes themselves are aligned only
if the declarations of the classes are found. -/
def FilePair.classFields (p : FilePair) (c : ClassPair) : List (Attribute × Attribute) :=
  let found := p.resolveAs? c.before.location c.after.location c.before.kind.declaration
  fieldsOfMembers (c.changedConstants.flatMap fun e =>
      e.classBody.toList.flatMap AnonymousClassPair.members) ++
    found.toList.flatMap (fun _ => c.attributes) ++ fieldsOfMembers c.bodies

/-- The fields that a class pair aligns, each with the files in which it does. -/
def ClassPair.fieldPairs (v : Versions) (c : ClassPair) : List (FilePair × Attribute × Attribute) :=
  (v.filePair c.before.sourceFile c.after.sourceFile).toOption.toList.flatMap fun p =>
    (p.classFields c).map (fun f => (p, f)) ++ c.refactorings.flatMap (Refactoring.fieldPairs v)

namespace FilePair

variable {p : FilePair} {f : Attribute × Attribute} {l : Link}

mutual

theorem mem_settle_body_of_field (hl : l ∈ p.fieldLinks config f.1 f.2) : ∀ b : BodyPair,
    f ∈ b.fields → l ∈ p.settle config (bodyFindings config p b)
  | ⟨_, _, _, _, _, anonymousClasses⟩, h => by
    rw [BodyPair.fields] at h
    exact mem_settle_body.2 (.inl (mem_settle_anonymous_of_field hl anonymousClasses h))

theorem mem_settle_anonymous_of_field (hl : l ∈ p.fieldLinks config f.1 f.2) :
    ∀ as : List AnonymousClassPair,
      f ∈ fieldsOfAnonymous as → l ∈ p.settle config (anonymousFindings config p as)
  | [], h => by simp [fieldsOfAnonymous] at h
  | ⟨attributes, members⟩ :: rest, h => by
    rw [fieldsOfAnonymous, List.mem_append, List.mem_append] at h
    rw [anonymousFindings, mem_settle_append, mem_settle_append, settle_immediate]
    rcases h with (h | h) | h
    · exact .inl (.inl (List.mem_flatMap.2 ⟨f, h, hl⟩))
    · exact .inl (.inr (mem_settle_members_of_field hl members h))
    · exact .inr (mem_settle_anonymous_of_field hl rest h)

theorem mem_settle_members_of_field (hl : l ∈ p.fieldLinks config f.1 f.2) :
    ∀ bs : List BodyPair,
      f ∈ fieldsOfMembers bs → l ∈ p.settle config (memberFindings config p bs)
  | [], h => by simp [fieldsOfMembers] at h
  | b :: rest, h => by
    rw [fieldsOfMembers, List.mem_append] at h
    rw [memberFindings, mem_settle_append, mem_settle_append, settle_immediate]
    rcases h with h | h
    · exact .inl (.inr (mem_settle_body_of_field hl b h))
    · exact .inr (mem_settle_members_of_field hl rest h)

end

theorem mem_settle_class_of_field {c : ClassPair} (hl : l ∈ p.fieldLinks config f.1 f.2)
    (h : f ∈ p.classFields c) : l ∈ p.settle config (p.classFindings config c) := by
  unfold classFields at h
  unfold classFindings
  simp only [mem_settle_append, settle_immediate]
  rcases List.mem_append.1 h with h | h
  · rcases List.mem_append.1 h with h | h
    · exact .inl (.inl (.inr (mem_settle_members_of_field hl _ h)))
    · obtain ⟨e, he, hf⟩ := List.mem_flatMap.1 h
      have hfields : l ∈ p.fieldsLinks config c.attributes := List.mem_flatMap.2 ⟨f, hf, hl⟩
      refine .inl (.inr (List.mem_flatMap.2 ⟨e, he, ?_⟩))
      simp only [classHeaderLinks, List.mem_cons, List.mem_append]
      exact .inr (.inl (.inl (.inr hfields)))
  · exact .inr (mem_settle_members_of_field hl _ h)

end FilePair

theorem Except.eq_ok_of_mem_toList {ε α : Type} {x : Except ε α} {a : α} (h : a ∈ x.toOption.toList) :
    x = .ok a := by
  cases x with
  | error w => cases h
  | ok b => exact congrArg Except.ok (List.mem_singleton.1 h).symm

namespace Refactoring

variable {e : FilePair × Attribute × Attribute} {l : Link}

theorem adds_of_field {r : Refactoring} (h : e ∈ r.fieldPairs v)
    (hl : l ∈ e.1.fieldLinks config e.2.1 e.2.2) : r.Adds config v e.1.sourcePath e.1.targetPath l := by
  cases r with
  | relocateOperation how old new body =>
    obtain ⟨p, hp, he⟩ := List.mem_flatMap.1 h
    obtain ⟨f, hf, rfl⟩ := List.mem_map.1 he
    exact (adds_iff_of_step rfl).2 ⟨p, Except.eq_ok_of_mem_toList hp, rfl, rfl,
      FilePair.mem_settle_operation.2 (.inr (FilePair.mem_settle_body_of_field hl body hf))⟩
  | shareBody how body =>
    obtain ⟨p, hp, he⟩ := List.mem_flatMap.1 h
    obtain ⟨f, hf, rfl⟩ := List.mem_map.1 he
    exact (adds_iff_of_step rfl).2 ⟨p, Except.eq_ok_of_mem_toList hp, rfl, rfl,
      FilePair.mem_settle_body_of_field hl body hf⟩
  | relocateAttribute how old new =>
    obtain ⟨p, hp, rfl⟩ := List.mem_map.1 h
    exact (adds_iff_of_step rfl).2 ⟨p, Except.eq_ok_of_mem_toList hp, rfl, rfl,
      (FilePair.settle_immediate _).symm ▸ hl⟩
  | renameAttribute old new =>
    obtain ⟨p, hp, rfl⟩ := List.mem_map.1 h
    exact (adds_iff_of_step rfl).2 ⟨p, Except.eq_ok_of_mem_toList hp, rfl, rfl,
      (FilePair.settle_immediate _).symm ▸ hl⟩
  | _ => cases h

end Refactoring

namespace Outcome

open Counterpart.Tree

variable {p : FilePair} {x y : Attribute} {l : Link}

/-- The outcome of a class pair holds all links of the fields that it aligns. -/
theorem ofClassPair_relates_field {c : ClassPair} (h : (p, x, y) ∈ c.fieldPairs v)
    (hl : l ∈ p.fieldLinks config x y) :
    (ofClassPair config v c).Relates p.sourcePath p.targetPath l := by
  obtain ⟨q, hq, hmem⟩ := List.mem_flatMap.1 h
  rw [relates_ofClassPair]
  refine ⟨q, Except.eq_ok_of_mem_toList hq, ?_⟩
  rcases List.mem_append.1 hmem with hown | hother
  · obtain ⟨f, hf, heq⟩ := List.mem_map.1 hown
    obtain ⟨rfl, rfl⟩ := Prod.mk.inj heq
    exact .inl ⟨rfl, rfl, FilePair.mem_settle_class_of_field hl hf⟩
  · obtain ⟨r, hr, hfield⟩ := List.mem_flatMap.1 hother
    exact .inr ⟨r, hr, Refactoring.adds_of_field hfield hl⟩

/-- The outcome of refactorings holds all links of the fields that they align. -/
theorem ofRefactorings_relates_field {rs : List Refactoring}
    (h : (p, x, y) ∈ rs.flatMap (Refactoring.fieldPairs v)) (hl : l ∈ p.fieldLinks config x y) :
    (ofRefactorings config v rs).Relates p.sourcePath p.targetPath l := by
  obtain ⟨r, hr, hfield⟩ := List.mem_flatMap.1 h
  exact relates_ofRefactorings.2 ⟨r, hr, Refactoring.adds_of_field hfield hl⟩

/-- Of two fields whose declarators are found, field alignment links the declarations. It links the declarators
and their names if the declarations differ in more than names or the declarators have the same position,
and otherwise leaves them as they were. What it links shows in the outcome of every class pair and of every
list of refactorings that comes to align the two fields. -/
theorem aligned_declarators (config : AlignmentConfig) {declaration declarator : Link}
    (h : p.Declares x y declaration declarator) :
    (∀ S : LinkSet, S.WellFormed →
      declaration ∈ (S.insertMany (p.fieldLinks config x y)).pairs ∧
      (p.KeepsDeclarators declaration declarator →
        p.JoinsDeclarators declarator (· ∈ (S.insertMany (p.fieldLinks config x y)).pairs)) ∧
      (¬ p.KeepsDeclarators declaration declarator →
        ∀ l, l = declarator ∨ l ∈ p.firstChildLink declarator →
          (l ∈ (S.insertMany (p.fieldLinks config x y)).pairs ↔ l ∈ S.pairs))) ∧
    (∀ (v : Versions) (c : ClassPair), (p, x, y) ∈ c.fieldPairs v →
      (ofClassPair config v c).Relates p.sourcePath p.targetPath declaration ∧
      (p.KeepsDeclarators declaration declarator →
        p.JoinsDeclarators declarator ((ofClassPair config v c).Relates p.sourcePath p.targetPath))) ∧
    (∀ (v : Versions) (rs : List Refactoring), (p, x, y) ∈ rs.flatMap (Refactoring.fieldPairs v) →
      (ofRefactorings config v rs).Relates p.sourcePath p.targetPath declaration ∧
      (p.KeepsDeclarators declaration declarator →
        p.JoinsDeclarators declarator
          ((ofRefactorings config v rs).Relates p.sourcePath p.targetPath))) := by
  refine ⟨fun S hS => ?_, fun v c hc => ?_, fun v rs hrs => ?_⟩
  · obtain ⟨hdeclaration, hjoins⟩ := h.joins config fun l hl => hS.mem_insertMany.2 (.inr hl)
    refine ⟨hdeclaration, hjoins, fun hnot l hl => ?_⟩
    rw [hS.mem_insertMany, h.mem_fieldLinks_iff hl]
    exact or_iff_left hnot
  · exact h.joins config fun l hl => ofClassPair_relates_field hc hl
  · exact h.joins config fun l hl => ofRefactorings_relates_field hrs hl

/-- A file with one declaration of two fields. -/
def twoFields (first second : String) : Tree :=
  ((((((single ⟨Kind.compilationUnit, none⟩ ⟨0, 20⟩).addChild 0 ⟨Kind.fieldDeclaration, none⟩
    ⟨1, 19⟩).addChild 1 ⟨Kind.primitiveType, some "int"⟩ ⟨1, 4⟩).addChild 1
    ⟨Kind.variableDeclarationFragment, none⟩ ⟨5, 10⟩).addChild 3 ⟨Kind.simpleName, some first⟩
    ⟨5, 10⟩).addChild 1 ⟨Kind.variableDeclarationFragment, none⟩ ⟨12, 17⟩).addChild 5
    ⟨Kind.simpleName, some second⟩ ⟨12, 17⟩ |>.finish

/-- The file whose `count` is renamed to `total` while `limit` comes first. -/
def renamedFile : FilePair :=
  ⟨"A.java", "A.java", twoFields "count" "limit", twoFields "limit" "total"⟩

def countField : Attribute := { name := "count", location := { file := "A.java", span := ⟨5, 10⟩ } }

def totalField : Attribute := { name := "total", location := { file := "A.java", span := ⟨12, 17⟩ } }

/-- The versions that hold the file. -/
def renamedVersions : Versions :=
  ⟨.ofList [("A.java", renamedFile.source)], .ofList [("A.java", renamedFile.target)]⟩

/-- The renaming of `count` to `total` links their declarations, but neither the two declarators nor the two
names. -/
theorem renamed_declarator_not_linked :
    (renamedFile, countField, totalField) ∈
      [Refactoring.renameAttribute countField totalField].flatMap (Refactoring.fieldPairs renamedVersions) ∧
    renamedFile.Declares countField totalField (1, 1) (3, 5) ∧
    (1, 1) ∈ (LinkSet.empty.insertMany (renamedFile.fieldLinks {} countField totalField)).pairs ∧
    (3, 5) ∉ (LinkSet.empty.insertMany (renamedFile.fieldLinks {} countField totalField)).pairs ∧
    (4, 6) ∉ (LinkSet.empty.insertMany (renamedFile.fieldLinks {} countField totalField)).pairs ∧
    ¬ (ofRefactorings {} renamedVersions [.renameAttribute countField totalField]).Relates "A.java" "A.java"
      (3, 5) := by
  have hdecl : renamedFile.Declares countField totalField (1, 1) (3, 5) :=
    ⟨by decide +kernel, by decide +kernel, by decide +kernel⟩
  have hnot : ¬ renamedFile.KeepsDeclarators (1, 1) (3, 5) := by
    unfold FilePair.KeepsDeclarators
    decide +kernel
  have hname : (4, 6) ∈ renamedFile.firstChildLink (3, 5) := by decide +kernel
  obtain ⟨hdeclaration, -, hleft⟩ := (aligned_declarators {} hdecl).1 .empty LinkSet.wellFormed_empty
  refine ⟨List.mem_cons_self, hdecl, hdeclaration, ?_, ?_, by decide +kernel⟩
  · rw [hleft hnot (3, 5) (.inl rfl)]
    exact List.not_mem_nil
  · rw [hleft hnot (4, 6) (.inr hname)]
    exact List.not_mem_nil

end Outcome

end Counterpart
