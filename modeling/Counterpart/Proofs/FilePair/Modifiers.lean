import Counterpart.Proofs.Outcome.Declarators
import Counterpart.Proofs.Tree.Paths
import Counterpart.Proofs.Tree.Resolution

/-!
# Modifiers of aligned fields

A modifier of a field declaration is linked to a child of the other declaration with the same label, or not at
all. Where the declarations agree this is because keywords belong to their shape. Where they differ, the
keywords that both fields share are looked for by label, and all else that is linked lies in parts that hold no
modifier of the declarations: the declarators (`Declares.sparesModifiers`), and the type and the comment, which
have locations of their own. The main statement is `modifiers_linked_by_label`.
-/

namespace Counterpart

namespace Modifier

theorem mem_sharedKeywords {ms ns : List Modifier} {keyword : String} :
    keyword ∈ sharedKeywords ms ns ↔ ∃ m ∈ ms, m ∈ ns ∧ m.keyword = keyword := by
  simp only [sharedKeywords, List.mem_map, List.mem_filter, Bool.and_eq_true, List.contains_iff_mem,
    mem_all, true_and, and_assoc]

end Modifier

theorem Visibility.sharedKeyword?_eq_some_iff {v w : Visibility} {keyword : String} :
    v.sharedKeyword? w = some keyword ↔ v = w ∧ v.keyword? = some keyword := by
  rw [sharedKeyword?]
  split
  · next h => exact (and_iff_right h).symm
  · next h => exact iff_of_false nofun fun e => h e.1

namespace Attribute

/-- The keyword is that of an access level or of a modifier that both fields have. -/
def ShareKeyword (x y : Attribute) (keyword : String) : Prop :=
  (x.visibility = y.visibility ∧ x.visibility.keyword? = some keyword) ∨
    ∃ m ∈ x.modifiers, m ∈ y.modifiers ∧ m.keyword = keyword

/-- Where the types and the comments of two fields are. -/
def partLocations (x y : Attribute) : List (Location × Location) :=
  (x.type.location, y.type.location) ::
    (both? x.javadoc y.javadoc).toList.map fun d => (d.1.location, d.2.location)

end Attribute

namespace Tree

variable {t : Tree} {n : Nat} {keyword : String}

/-- The modifiers among the children of a node. -/
def modifiers (t : Tree) (n : Nat) : List Nat :=
  (t.children n).filter fun c => t.kind c == Kind.modifier

theorem mem_modifiers {m : Nat} : m ∈ t.modifiers n ↔ m ∈ t.children n ∧ t.kind m = Kind.modifier := by
  rw [modifiers, List.mem_filter, beq_iff_eq]

/-- The first child with a label. -/
def firstLabelled? (t : Tree) (n : Nat) (label : String) : Option Nat :=
  (t.children n).find? fun c => t.label c == some label

/-- The children of a declaration before its first declarator. -/
def beforeDeclarators (t : Tree) (n : Nat) : List Nat :=
  (t.children n).takeWhile fun c => t.kind c != Kind.variableDeclarationFragment

/-- A search that stops at the first declarator finds what stands before it. -/
theorem find?_throughDeclarator {ns : List Nat} {q : Nat → Bool}
    (h : ∃ c ∈ ns.takeWhile (fun c => t.kind c != Kind.variableDeclarationFragment), q c = true) :
    (t.throughDeclarator ns).find? q = ns.find? q := by
  induction ns with
  | nil => rfl
  | cons c cs ih =>
    rw [List.takeWhile_cons] at h
    rw [throughDeclarator]
    by_cases hkind : t.kind c = Kind.variableDeclarationFragment
    · simp [hkind] at h
    · rw [if_neg (by simpa using hkind), List.find?_cons, List.find?_cons]
      rw [if_pos (by simpa using hkind)] at h
      cases hq : q c with
      | true => rfl
      | false =>
        obtain ⟨d, hd, hqd⟩ := h
        have hne : d ≠ c := by
          rintro rfl
          rw [hq] at hqd
          cases hqd
        exact ih ⟨d, List.mem_of_ne_of_mem hne hd, hqd⟩

/-- A keyword that stands before the declarators is found, at the first child that has it as a label. -/
theorem headChildLabelled?_of_before (h : ∃ c ∈ t.beforeDeclarators n, t.label c = some keyword) :
    ∃ c, t.headChildLabelled? n keyword = some c ∧ t.firstLabelled? n keyword = some c := by
  have hlabel : ∃ c ∈ t.beforeDeclarators n, (t.label c == some keyword) = true := by simpa using h
  obtain ⟨c, hc, hq⟩ := hlabel
  have hsome : (t.firstLabelled? n keyword).isSome = true :=
    List.find?_isSome.2 ⟨c, (List.takeWhile_sublist _).subset hc, hq⟩
  obtain ⟨d, hd⟩ := Option.isSome_iff_exists.1 hsome
  exact ⟨d, (find?_throughDeclarator ⟨c, hc, hq⟩).trans hd, hd⟩

theorem label_of_headChildLabelled? {c : Nat} (h : t.headChildLabelled? n keyword = some c) :
    c ∈ t.children n ∧ t.label c = some keyword := by
  have hlabel := List.find?_some (p := fun c => t.label c == some keyword) h
  exact ⟨FilePair.throughDeclarator_subset (List.mem_of_find?_eq_some h), beq_iff_eq.1 hlabel⟩

end Tree

namespace FilePair

open Counterpart.Tree

variable {config : AlignmentConfig} {p : FilePair} {declaration declarator e l : Link} {x y : Attribute}

/-- One end of the link is a modifier of one of the declarations. -/
def TouchesModifier (p : FilePair) (declaration l : Link) : Prop :=
  l.1 ∈ p.source.modifiers declaration.1 ∨ l.2 ∈ p.target.modifiers declaration.2

/-- The subtrees of two nodes hold no modifier of the declarations. -/
def SparesModifiers (p : FilePair) (declaration e : Link) : Prop :=
  (∀ m ∈ p.source.modifiers declaration.1, m ∉ p.source.descendants e.1) ∧
    ∀ m ∈ p.target.modifiers declaration.2, m ∉ p.target.descendants e.2

instance (p : FilePair) (declaration e : Link) : Decidable (p.SparesModifiers declaration e) :=
  inferInstanceAs (Decidable (_ ∧ _))

theorem SparesModifiers.not_touches (h : p.SparesModifiers declaration e)
    (hl : LinkWithin p.source p.target e l) : ¬ p.TouchesModifier declaration l := by
  rintro (hm | hm)
  · exact h.1 l.1 hm hl.1
  · exact h.2 l.2 hm hl.2

/-- A link between children of the declarations that have the same label. -/
structure JoinsByLabel (p : FilePair) (declaration l : Link) : Prop where
  source_child : l.1 ∈ p.source.children declaration.1
  target_child : l.2 ∈ p.target.children declaration.2
  label_eq : p.source.label l.1 = p.target.label l.2

/-! ### Declarations that agree -/

theorem outline_eq_of_isSameDeclaration (hs : p.source.IsFinished) (ht : p.target.IsFinished)
    (h : p.isSameDeclaration declaration = true) :
    Term.outline (p.source.term declaration.1) = Term.outline (p.target.term declaration.2) := by
  rcases Bool.or_eq_true_iff.1 h with hdigest | hshape
  · rw [hs.term_eq_of_digest_eq ht (of_decide_eq_true hdigest)]
  · exact outline_eq_of_isSameShape hshape

/-- Laying declarations of the same shape over each other joins modifiers by label. -/
theorem joinsByLabel_of_mem_overlay
    (h : Term.outline (p.source.term declaration.1) = Term.outline (p.target.term declaration.2))
    (hl : l ∈ p.overlay declaration) (htouches : p.TouchesModifier declaration l) :
    p.JoinsByLabel declaration l := by
  have hpath := mem_overlay_iff_path.1 hl
  have hchildren := mem_children_iff_of_mem_pathLinks hpath
  obtain ⟨hkind, hlabel⟩ := Atom.outline_eq_iff.1 (outline_eq_of_mem_pathLinks h hpath)
  have hkeyword : ∀ {k : Kind}, k = Kind.modifier → k.isKeyword = true := by
    rintro k rfl
    decide
  rcases htouches with hm | hm
  · obtain ⟨hc, hmodifier⟩ := mem_modifiers.1 hm
    exact ⟨hc, hchildren.1 hc, hlabel (hkeyword hmodifier)⟩
  · obtain ⟨hd, hmodifier⟩ := mem_modifiers.1 hm
    exact ⟨hchildren.2 hd, hd, hlabel (hkeyword (hkind.trans hmodifier))⟩

/-! ### Declarations that differ -/

/-- A declarator is no modifier, and what lies below it is no child of the declaration. -/
theorem Declares.sparesModifiers (h : p.Declares x y declaration declarator) :
    p.SparesModifiers declaration declarator := by
  have hspares : ∀ {t : Tree} {n d m : Nat}, t.kind d = Kind.variableDeclarationFragment →
      t.parent d = some n → m ∈ t.modifiers n → m ∉ t.descendants d := by
    intro t n d m hkind hd hm hmd
    obtain ⟨hc, hmodifier⟩ := mem_modifiers.1 hm
    obtain rfl := eq_of_mem_descendants_children (mem_children.1 hc) hd (self_mem_descendants t m) hmd
    rw [hkind] at hmodifier
    revert hmodifier
    decide
  obtain ⟨-, -, hs, ht⟩ := resolveBy?_spec h.found
  exact ⟨fun m => hspares (kind_of_resolve hs) h.source_parent,
    fun m => hspares (kind_of_resolve ht) h.target_parent⟩

theorem mem_headKeywordLink {keyword : String} :
    l ∈ p.headKeywordLink declaration keyword ↔
      p.source.headChildLabelled? declaration.1 keyword = some l.1 ∧
        p.target.headChildLabelled? declaration.2 keyword = some l.2 := by
  rw [headKeywordLink, Option.mem_toList]
  exact both?_eq_some_iff

theorem joinsByLabel_of_mem_headKeywordLink {keyword : String}
    (h : l ∈ p.headKeywordLink declaration keyword) : p.JoinsByLabel declaration l := by
  obtain ⟨hs, ht⟩ := mem_headKeywordLink.1 h
  obtain ⟨hc, hlabel⟩ := label_of_headChildLabelled? hs
  obtain ⟨hd, hlabel'⟩ := label_of_headChildLabelled? ht
  exact ⟨hc, hd, hlabel.trans hlabel'.symm⟩

/-- No node is a child of itself. -/
theorem not_touchesModifier_self (p : FilePair) (declaration : Link) :
    ¬ p.TouchesModifier declaration declaration := by
  have hself : ∀ {t : Tree} {n : Nat}, n ∉ t.modifiers n := fun hn =>
    Nat.lt_irrefl _ (lt_of_parent (mem_children.1 (mem_modifiers.1 hn).1))
  rintro (hm | hm)
  · exact hself hm
  · exact hself hm

/-- The links of two comments lie within what their locations denote. -/
theorem exists_within_of_mem_javadocLinks (h : l ∈ p.javadocLinks x.javadoc y.javadoc) :
    ∃ q ∈ Attribute.partLocations x y, ∃ e, p.resolve? q.1 q.2 = some e ∧
      LinkWithin p.source p.target e l := by
  unfold javadocLinks at h
  split at h
  · next d d' hd hd' =>
    split at h
    · obtain ⟨e, he, hl⟩ := List.mem_flatMap.1 h
      refine ⟨(d.location, d'.location), ?_, e, Option.mem_toList.1 he, linkWithin_of_mem_overlay hl⟩
      simp [Attribute.partLocations, hd, hd', both?]
    · cases h
  · cases h

/-- Of all that is linked in two declarations that differ, only the shared keywords touch modifiers. -/
theorem Declares.joinsByLabel (h : p.Declares x y declaration declarator)
    (hparts : ∀ q ∈ Attribute.partLocations x y, ∀ e, p.resolve? q.1 q.2 = some e →
      p.SparesModifiers declaration e)
    (hl : l ∈ changedFieldLinks config p declaration declarator x y)
    (htouches : p.TouchesModifier declaration l) : p.JoinsByLabel declaration l := by
  unfold changedFieldLinks at hl
  simp only [List.mem_cons, List.mem_append, List.mem_flatMap] at hl
  rcases hl with rfl | (((⟨keyword, -, hl⟩ | hl) | rfl | hl) | hl) | hl
  · exact absurd htouches (not_touchesModifier_self p l)
  · exact joinsByLabel_of_mem_headKeywordLink hl
  · obtain ⟨e, he, hl⟩ := List.mem_flatMap.1 hl
    have hfound := (Option.filter_eq_some_iff.1 (Option.mem_toList.1 he)).1
    have hspares := hparts _ List.mem_cons_self e hfound
    exact absurd htouches (hspares.not_touches (linkWithin_of_mem_overlay hl))
  · exact absurd htouches (h.sparesModifiers.not_touches (.refl _ _ l))
  · exact absurd htouches (h.sparesModifiers.not_touches (Alignment.simpleLinks_within hl))
  · obtain ⟨q, hq, e, hfound, hwithin⟩ := exists_within_of_mem_javadocLinks hl
    exact absurd htouches ((hparts q hq e hfound).not_touches hwithin)
  · exact absurd htouches (h.sparesModifiers.not_touches (firstChildLink_within hl))

/-- The keywords that are looked for are those that the fields share. -/
theorem Declares.keywordLink_mem (config : AlignmentConfig) (h : p.Declares x y declaration declarator)
    (hchanged : p.isSameDeclaration declaration = false) {keyword : String} (hshare : x.ShareKeyword y keyword)
    (hl : l ∈ p.headKeywordLink declaration keyword) : l ∈ p.fieldLinks config x y := by
  have hlisted : keyword ∈ (x.visibility.sharedKeyword? y.visibility).toList ++
      Modifier.sharedKeywords x.modifiers y.modifiers := by
    rw [List.mem_append, Option.mem_toList, Modifier.mem_sharedKeywords]
    exact hshare.imp_left Visibility.sharedKeyword?_eq_some_iff.2
  rw [h.fieldLinks_eq, if_neg (by simp [hchanged])]
  simp only [changedFieldLinks, List.mem_cons, List.mem_append, List.mem_flatMap]
  exact .inr (.inl (.inl (.inl (.inl ⟨keyword, List.mem_append.1 hlisted, hl⟩))))

/-- Of two fields in finished trees, suppose that the locations of the types and of the comments denote nothing
around a modifier of the two declarations. Then a modifier of either declaration is linked to nothing but
children of the other one with the same label, so a keyword that was changed is not linked. Unless the
declarations agree, every keyword that both fields share and that stands before the declarators on both sides
is linked, at the first children that have it as a label. -/
theorem modifiers_linked_by_label (config : AlignmentConfig) (hs : p.source.IsFinished)
    (ht : p.target.IsFinished) (h : p.Declares x y declaration declarator)
    (hparts : ∀ q ∈ Attribute.partLocations x y, ∀ e, p.resolve? q.1 q.2 = some e →
      p.SparesModifiers declaration e) :
    (∀ l ∈ p.fieldLinks config x y, p.TouchesModifier declaration l → p.JoinsByLabel declaration l) ∧
    (∀ m ∈ p.source.modifiers declaration.1,
      (∀ n ∈ p.target.children declaration.2, p.source.label m ≠ p.target.label n) →
        ∀ n, (m, n) ∉ p.fieldLinks config x y) ∧
    (∀ n ∈ p.target.modifiers declaration.2,
      (∀ m ∈ p.source.children declaration.1, p.source.label m ≠ p.target.label n) →
        ∀ m, (m, n) ∉ p.fieldLinks config x y) ∧
    (p.isSameDeclaration declaration = false → ∀ keyword, x.ShareKeyword y keyword →
      (∃ c ∈ p.source.beforeDeclarators declaration.1, p.source.label c = some keyword) →
      (∃ c ∈ p.target.beforeDeclarators declaration.2, p.target.label c = some keyword) →
        ∃ l ∈ p.fieldLinks config x y, p.source.firstLabelled? declaration.1 keyword = some l.1 ∧
          p.target.firstLabelled? declaration.2 keyword = some l.2) := by
  have hjoins : ∀ l ∈ p.fieldLinks config x y, p.TouchesModifier declaration l →
      p.JoinsByLabel declaration l := by
    intro l hl htouches
    rw [h.fieldLinks_eq] at hl
    split at hl
    · next hsame =>
      exact joinsByLabel_of_mem_overlay (outline_eq_of_isSameDeclaration hs ht hsame) hl htouches
    · exact h.joinsByLabel hparts hl htouches
  refine ⟨hjoins, fun m hm hgone n hl => ?_, fun n hn hnew m hl => ?_, ?_⟩
  · have hjoin := hjoins (m, n) hl (.inl hm)
    exact hgone n hjoin.target_child hjoin.label_eq
  · have hjoin := hjoins (m, n) hl (.inr hn)
    exact hnew m hjoin.source_child hjoin.label_eq
  · intro hchanged keyword hshare hsource htarget
    obtain ⟨c, hc, hfirst⟩ := headChildLabelled?_of_before hsource
    obtain ⟨d, hd, hfirst'⟩ := headChildLabelled?_of_before htarget
    exact ⟨(c, d), h.keywordLink_mem config hchanged hshare (mem_headKeywordLink.2 ⟨hc, hd⟩), hfirst, hfirst'⟩

/-- A documented field of the given access. -/
def documentedField (access : String) : Tree :=
  (((((((single ⟨Kind.fieldDeclaration, none⟩ ⟨0, 50⟩).addChild 0 ⟨Kind.javadoc, some "size"⟩ ⟨0, 9⟩).addChild 0
    ⟨Kind.modifier, some access⟩ ⟨10, 17⟩).addChild 0 ⟨Kind.modifier, some "final"⟩ ⟨18, 23⟩).addChild 0
    ⟨Kind.primitiveType, some "int"⟩ ⟨24, 27⟩).addChild 0 ⟨Kind.variableDeclarationFragment, none⟩
    ⟨28, 37⟩).addChild 5 ⟨Kind.simpleName, some "count"⟩ ⟨28, 33⟩).addChild 5 ⟨Kind.numberLiteral, some "0"⟩
    ⟨36, 37⟩ |>.finish

theorem isFinished_documentedField (access : String) : (documentedField access).IsFinished :=
  ⟨_, rfl⟩

/-- The file whose field was made public. -/
def publishedFile : FilePair :=
  ⟨"A.java", "A.java", documentedField "private", documentedField "public"⟩

def finalField (access : Visibility) : Attribute where
  name := "count"
  location := { file := "A.java", span := ⟨28, 37⟩ }
  type := { name := "int", location := { file := "A.java", span := ⟨24, 27⟩ } }
  visibility := access
  modifiers := [.isFinal]
  javadoc := some { text := "size", location := { file := "A.java", span := ⟨0, 9⟩ } }

/-- The access of the field is linked to nothing, while the keyword that it kept is. -/
theorem publishedField_keeps_final :
    let links := publishedFile.fieldLinks {} (finalField .isPrivate) (finalField .isPublic)
    publishedFile.Declares (finalField .isPrivate) (finalField .isPublic) (0, 0) (5, 5) ∧
    (∀ n, (2, n) ∉ links) ∧ (∀ m, (m, 2) ∉ links) ∧ (3, 3) ∈ links := by
  intro links
  have hdeclares : publishedFile.Declares (finalField .isPrivate) (finalField .isPublic) (0, 0) (5, 5) :=
    ⟨by decide +kernel, by decide +kernel, by decide +kernel⟩
  have hparts : ∀ q ∈ Attribute.partLocations (finalField .isPrivate) (finalField .isPublic), ∀ e,
      publishedFile.resolve? q.1 q.2 = some e → publishedFile.SparesModifiers (0, 0) e := by
    decide +kernel
  obtain ⟨-, hgone, hnew, hshared⟩ := modifiers_linked_by_label {} (isFinished_documentedField "private")
    (isFinished_documentedField "public") hdeclares hparts
  refine ⟨hdeclares, hgone 2 (by decide +kernel) (by decide +kernel),
    hnew 2 (by decide +kernel) (by decide +kernel), ?_⟩
  obtain ⟨l, hl, hfirst, hfirst'⟩ := hshared (by decide +kernel) "final"
    (.inr ⟨.isFinal, by decide +kernel, by decide +kernel, rfl⟩) ⟨3, by decide +kernel, by decide +kernel⟩
    ⟨3, by decide +kernel, by decide +kernel⟩
  have hs : publishedFile.source.firstLabelled? 0 "final" = some 3 := by decide +kernel
  have ht : publishedFile.target.firstLabelled? 0 "final" = some 3 := by decide +kernel
  obtain rfl : l = (3, 3) :=
    Prod.ext (Option.some.inj (hfirst.symm.trans hs)) (Option.some.inj (hfirst'.symm.trans ht))
  exact hl

end FilePair

end Counterpart
