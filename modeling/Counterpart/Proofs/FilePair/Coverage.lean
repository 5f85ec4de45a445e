import Counterpart.Proofs.Alignment.Confinement
import Counterpart.Proofs.Outcome.Correspondence
import Counterpart.Proofs.Outcome.Relation

/-!
# Every pass is confined to its correspondences

`FilePair.Covered p xs l` says that the link `l` lies within the nodes of one of the correspondences
`xs`, in the files of `p`. For every pass over a file pair, what it finds is covered by what the model
lists for it: fields by `fieldLinks_covered`, declarations around bodies by
`declarationLinks_covered`, bodies at any depth by `body_covered`, class declarations by
`classLinks_covered`.
-/

namespace Counterpart

namespace FilePair

open Counterpart.Tree

/-- Some of the correspondences holds the link within its nodes, in these files. -/
def Covered (p : FilePair) (xs : List Correspondence) (l : Link) : Prop :=
  ∃ x ∈ xs, x.before.file = p.sourcePath ∧ x.after.file = p.targetPath ∧
    ∃ e : Link, x.reading.node? x.before p.source = some e.1 ∧
      x.reading.node? x.after p.target = some e.2 ∧ LinkWithin p.source p.target e l

variable {config : AlignmentConfig} {p : FilePair} {xs ys : List Correspondence} {l e : Link}

theorem Covered.mono (h : p.Covered xs l) (hsub : ∀ x ∈ xs, x ∈ ys) : p.Covered ys l := by
  obtain ⟨x, hx, hrest⟩ := h
  exact ⟨x, hsub x hx, hrest⟩

theorem Covered.left (h : p.Covered xs l) : p.Covered (xs ++ ys) l :=
  h.mono fun _ hx => List.mem_append_left ys hx

theorem Covered.right (h : p.Covered ys l) : p.Covered (xs ++ ys) l :=
  h.mono fun _ hx => List.mem_append_right xs hx

theorem Covered.tail {x : Correspondence} (h : p.Covered xs l) : p.Covered (x :: xs) l :=
  h.mono fun _ hx => List.mem_cons_of_mem x hx

theorem Covered.flatMap {α : Type} {f : α → List Correspondence} {as : List α} {a : α} (ha : a ∈ as)
    (h : p.Covered (f a) l) : p.Covered (as.flatMap f) l :=
  h.mono fun _ hx => List.mem_flatMap.2 ⟨a, ha, hx⟩

theorem Covered.map {α : Type} {f : α → Correspondence} {as : List α} {a : α} (ha : a ∈ as)
    (h : p.Covered [f a] l) : p.Covered (as.map f) l := by
  refine h.mono fun x hx => ?_
  obtain rfl := List.mem_singleton.1 hx
  exact List.mem_map_of_mem ha

/-! ### Single places -/

theorem resolveBy?_spec {find : Location → Tree → Option Nat} {x y : Location}
    (h : p.resolveBy? find x y = some e) :
    x.file = p.sourcePath ∧ y.file = p.targetPath ∧ find x p.source = some e.1 ∧
      find y p.target = some e.2 := by
  unfold resolveBy? at h
  split at h
  · next hfiles =>
    obtain ⟨hs, ht⟩ := both?_eq_some_iff.1 h
    exact ⟨hfiles.1, hfiles.2, hs, ht⟩
  · cases h

theorem covered_of_resolve? {x y : Location} (h : p.resolve? x y = some e)
    (hl : LinkWithin p.source p.target e l) :
    p.Covered ({ before := x, after := y } :: xs) l := by
  obtain ⟨hs, ht, hx, hy⟩ := resolveBy?_spec h
  exact ⟨_, List.mem_cons_self, hs, ht, e, hx, hy, hl⟩

theorem covered_of_resolveAs? {x y : Location} {k : Kind} (h : p.resolveAs? x y k = some e)
    (hl : LinkWithin p.source p.target e l) :
    p.Covered ({ before := x, after := y, reading := .ofKind k } :: xs) l := by
  obtain ⟨hs, ht, hx, hy⟩ := resolveBy?_spec h
  exact ⟨_, List.mem_cons_self, hs, ht, e, hx, hy, hl⟩

theorem covered_of_declarator {x y : Location} {d : Link}
    (h : p.resolveAs? x y Kind.variableDeclarationFragment = some d)
    (hp : both? (p.source.parent d.1) (p.target.parent d.2) = some e)
    (hl : LinkWithin p.source p.target e l) :
    p.Covered ({ before := x, after := y, reading := .asDeclaration } :: xs) l := by
  obtain ⟨hs, ht, hx, hy⟩ := resolveBy?_spec h
  obtain ⟨hps, hpt⟩ := both?_eq_some_iff.1 (Prod.eta e ▸ hp)
  refine ⟨_, List.mem_cons_self, hs, ht, e, ?_, ?_, hl⟩
  · exact Option.bind_eq_some_iff.2 ⟨d.1, hx, hps⟩
  · exact Option.bind_eq_some_iff.2 ⟨d.2, hy, hpt⟩

theorem covered_of_mem_flatMap {x y : Location} {f : Link → List Link}
    (h : l ∈ (p.resolve? x y).toList.flatMap f)
    (hf : ∀ e, l ∈ f e → LinkWithin p.source p.target e l) :
    p.Covered ({ before := x, after := y } :: xs) l := by
  obtain ⟨e, he, hl⟩ := List.mem_flatMap.1 h
  exact covered_of_resolve? (Option.mem_toList.1 he) (hf e hl)

theorem wholeLinks_covered {x y : Location} (h : l ∈ p.wholeLinks x y) :
    p.Covered [{ before := x, after := y }] l :=
  covered_of_mem_flatMap h fun _ => linkWithin_of_mem_overlay

theorem wholeLinksIf_covered {fits : Link → Bool} {x y : Location}
    (h : l ∈ p.wholeLinksIf fits x y) : p.Covered [{ before := x, after := y }] l := by
  obtain ⟨e, he, hl⟩ := List.mem_flatMap.1 h
  have he' := (Option.filter_eq_some_iff.1 (Option.mem_toList.1 he)).1
  exact covered_of_resolve? he' (linkWithin_of_mem_overlay hl)

theorem javadocLinks_covered {x y : Option Javadoc} (h : l ∈ p.javadocLinks x y) :
    p.Covered (Javadoc.correspondences x y) l := by
  unfold javadocLinks at h
  split at h
  · next x y =>
    split at h
    · next heq =>
      have hlist : Javadoc.correspondences (some x) (some y) =
          [{ before := x.location, after := y.location }] := by
        simp [Javadoc.correspondences, both?, heq]
      rw [hlist]
      exact wholeLinks_covered h
    · cases h
  · cases h

/-! ### Children of nodes found -/

theorem childLink_within {k : Kind} (h : l ∈ p.childLink e k) :
    LinkWithin p.source p.target e l :=
  linkWithin_of_childrenOfKind? (Option.mem_toList.1 h)

theorem firstChildLink_within (h : l ∈ p.firstChildLink e) : LinkWithin p.source p.target e l :=
  linkWithin_of_both? (Option.mem_toList.1 h) (fun _ => List.mem_of_getElem?)
    (fun _ => List.mem_of_getElem?)

theorem modifierLink_within {keyword : String} (h : l ∈ p.modifierLink e keyword) :
    LinkWithin p.source p.target e l :=
  linkWithin_of_both? (Option.mem_toList.1 h) (fun _ => childWith?_mem) (fun _ => childWith?_mem)

theorem throughDeclarator_subset {t : Tree} {ns : List Nat} {n : Nat}
    (h : n ∈ t.throughDeclarator ns) : n ∈ ns := by
  induction ns with
  | nil => exact h
  | cons c cs ih =>
    unfold throughDeclarator at h
    split at h
    · obtain rfl := List.mem_singleton.1 h
      exact List.mem_cons_self
    · rcases List.mem_cons.1 h with rfl | h
      · exact List.mem_cons_self
      · exact List.mem_cons_of_mem c (ih h)

theorem headKeywordLink_within {keyword : String} (h : l ∈ p.headKeywordLink e keyword) :
    LinkWithin p.source p.target e l :=
  linkWithin_of_both? (Option.mem_toList.1 h)
    (fun _ hc => throughDeclarator_subset (List.mem_of_find?_eq_some hc))
    (fun _ hd => throughDeclarator_subset (List.mem_of_find?_eq_some hd))

theorem anchorLinks_within (h : l ∈ p.anchorLinks e) : LinkWithin p.source p.target e l := by
  obtain ⟨k, -, hl⟩ := List.mem_flatMap.1 h
  exact childLink_within hl

/-! ### Fields -/

theorem linkWithin_of_parents {d : Link}
    (h : both? (p.source.parent d.1) (p.target.parent d.2) = some e) :
    LinkWithin p.source p.target e d := by
  obtain ⟨hs, ht⟩ := both?_eq_some_iff.1 (Prod.eta e ▸ h)
  exact linkWithin_of_children (mem_children.2 hs) (mem_children.2 ht)

theorem fieldLinks_covered {x y : Attribute} (h : l ∈ p.fieldLinks config x y) :
    p.Covered (Attribute.correspondences x y) l := by
  unfold fieldLinks at h
  split at h
  · cases h
  next d hd =>
  split at h
  · cases h
  next e he =>
  have hdecl : LinkWithin p.source p.target e l → p.Covered (Attribute.correspondences x y) l :=
    covered_of_declarator hd he
  have hed : LinkWithin p.source p.target e d := linkWithin_of_parents he
  -- All but the type and the comment, which have locations of their own, lies within the declarations.
  split at h
  · exact hdecl (linkWithin_of_mem_overlay h)
  · unfold changedFieldLinks at h
    simp only [List.mem_cons, List.mem_append, List.mem_flatMap] at h
    rcases h with rfl | (((⟨k, -, h⟩ | h) | rfl | h) | h) | h
    · exact hdecl (.refl _ _ l)
    · exact hdecl (headKeywordLink_within h)
    · exact (wholeLinksIf_covered h).mono (by simp [Attribute.correspondences])
    · exact hdecl hed
    · exact hdecl (hed.trans (Alignment.simpleLinks_within h))
    · exact (javadocLinks_covered h).tail.tail
    · exact hdecl (hed.trans (firstChildLink_within h))

theorem fieldsLinks_covered {fs : List (Attribute × Attribute)} (h : l ∈ p.fieldsLinks config fs) :
    p.Covered (fs.flatMap fun x => Attribute.correspondences x.1 x.2) l := by
  obtain ⟨f, hf, hl⟩ := List.mem_flatMap.1 h
  exact .flatMap hf (fieldLinks_covered hl)

/-! ### Bodies -/

theorem signatureLinks_covered {s : SignaturePair} (h : l ∈ p.signatureLinks s) :
    p.Covered s.correspondences l := by
  unfold signatureLinks at h
  rcases List.mem_append.1 h with h | h
  · obtain ⟨x, hx, hl⟩ := List.mem_flatMap.1 h
    exact .map (List.mem_append_left _ hx) (wholeLinks_covered hl)
  · obtain ⟨x, hx, hl⟩ := List.mem_flatMap.1 h
    exact .map (List.mem_append_right _ hx) (wholeLinksIf_covered hl)

theorem operationLinks_covered {x y : Operation} (h : l ∈ p.operationLinks x y) :
    p.Covered [{ before := x.location, after := y.location }] l := by
  refine covered_of_mem_flatMap h fun e he => ?_
  rcases List.mem_cons.1 he with rfl | he
  · exact .refl _ _ l
  rcases List.mem_append.1 he with he | he
  · exact anchorLinks_within he
  · obtain ⟨keyword, -, hl⟩ := List.mem_flatMap.1 he
    exact modifierLink_within hl

theorem otherContainerLinks_covered {bothStatic : Bool} {x y : Location}
    (h : l ∈ p.otherContainerLinks bothStatic x y) :
    p.Covered [{ before := x, after := y }] l := by
  refine covered_of_mem_flatMap h fun e he => ?_
  rcases List.mem_cons.1 he with rfl | he
  · exact .refl _ _ l
  rcases List.mem_append.1 he with he | he
  · split at he
    · exact firstChildLink_within he
    · cases he
  · exact anchorLinks_within he

theorem containerLinks_covered {x y : Container} (h : l ∈ p.containerLinks x y) :
    p.Covered ({ before := x.location, after := y.location } ::
      Javadoc.correspondences x.javadoc? y.javadoc?) l := by
  have hhead : ∀ {a b : Location} {xs : List Correspondence},
      p.Covered [{ before := a, after := b }] l → p.Covered ({ before := a, after := b } :: xs) l :=
    fun h => h.mono (by simp)
  unfold containerLinks at h
  split at h
  · next x y =>
    rcases List.mem_append.1 h with h | h
    · exact (javadocLinks_covered h).tail
    · exact hhead (operationLinks_covered h)
  · exact hhead (otherContainerLinks_covered h)
  · exact hhead (otherContainerLinks_covered h)

theorem declarationLinks_covered {b : BodyPair} (h : l ∈ p.declarationLinks b) :
    p.Covered b.declarations l := by
  unfold declarationLinks at h
  rcases List.mem_append.1 h with h | h
  · rcases List.mem_append.1 h with h | h
    · obtain ⟨s, hs, hl⟩ := List.mem_flatMap.1 h
      exact (Covered.flatMap hs (signatureLinks_covered hl)).left.left.tail
    · obtain ⟨x, hx, hl⟩ := List.mem_flatMap.1 h
      have hcov : p.Covered [{ before := x.1.location, after := x.2.location }] l :=
        wholeLinksIf_covered hl
      exact (Covered.map hx hcov).right.left.tail
  · refine (containerLinks_covered h).mono fun x hx => ?_
    rcases List.mem_cons.1 hx with rfl | hx
    · exact List.mem_cons_self
    · exact List.mem_cons_of_mem _ (List.mem_append_right _ hx)

theorem compositeLinks_within (h : l ∈ compositeLinks config p e) :
    LinkWithin p.source p.target e l := by
  have hparts : l ∈ Alignment.compositeLinks config p.source p.target e.1 e.2 →
      LinkWithin p.source p.target e l := Alignment.compositeLinks_within
  have hblocks : l ∈ Alignment.blockLinks p.source p.target e.1 e.2 →
      LinkWithin p.source p.target e l := Alignment.blockLinks_within
  have hself : l = e → LinkWithin p.source p.target e l := by
    rintro rfl
    exact .refl _ _ l
  unfold compositeLinks at h
  dsimp only at h
  split at h
  · exact (List.mem_cons.1 h).elim hself hblocks
  split at h
  · exact (List.mem_cons.1 h).elim hself fun h => (List.mem_append.1 h).elim hblocks hparts
  split at h
  · exact hself (List.mem_singleton.1 h)
  · exact (List.mem_cons.1 h).elim hself hparts

theorem fragmentLinks_covered {f : FragmentPair} (h : l ∈ p.fragmentLinks config f) :
    p.Covered [f.correspondence] l := by
  refine covered_of_mem_flatMap h fun e he => ?_
  split at he
  · exact Alignment.simpleLinks_within he
  · exact compositeLinks_within he

mutual

/-- Whatever the insides of two bodies come to is covered, at any depth. -/
theorem body_covered {l : Link} : ∀ b : BodyPair,
    l ∈ p.settle config (bodyFindings config p b) → p.Covered b.contents l
  | ⟨_, _, _, _, fragments, anonymousClasses⟩, h => by
    rw [BodyPair.contents]
    rcases mem_settle_body.1 h with h | ⟨f, hf, h⟩
    · exact (anonymous_covered anonymousClasses h).left
    · exact (Covered.map hf (fragmentLinks_covered h)).right

theorem anonymous_covered {l : Link} : ∀ as : List AnonymousClassPair,
    l ∈ p.settle config (anonymousFindings config p as) → p.Covered (contentsOfAnonymous as) l
  | [], h => by simp [anonymousFindings] at h
  | ⟨attributes, members⟩ :: rest, h => by
    rw [anonymousFindings, mem_settle_append, mem_settle_append, settle_immediate] at h
    rw [contentsOfAnonymous]
    rcases h with (h | h) | h
    · exact (fieldsLinks_covered h).left.left
    · exact (members_covered members h).right.left
    · exact (anonymous_covered rest h).right

theorem members_covered {l : Link} : ∀ bs : List BodyPair,
    l ∈ p.settle config (memberFindings config p bs) → p.Covered (contentsOfMembers bs) l
  | [], h => by simp [memberFindings] at h
  | b :: rest, h => by
    rw [memberFindings, mem_settle_append, mem_settle_append, settle_immediate] at h
    rw [contentsOfMembers]
    rcases h with (h | h) | h
    · exact (declarationLinks_covered h).left.left
    · exact (body_covered b h).right.left
    · exact (members_covered rest h).right

end

/-! ### Classes -/

theorem interfaceLinks_covered {ys : List TypeRef} {x : TypeRef} (h : l ∈ p.interfaceLinks ys x) :
    ∃ y ∈ ys, y.name = x.name ∧ p.Covered [{ before := x.location, after := y.location }] l := by
  obtain ⟨y, hy, hl⟩ := List.mem_flatMap.1 h
  rw [Option.mem_toList] at hy
  exact ⟨y, List.mem_of_find?_eq_some hy, by simpa using List.find?_some hy, wholeLinks_covered hl⟩

theorem classLinks_covered {c : ClassPair} (h : l ∈ p.classLinks config c) :
    p.Covered c.header l := by
  obtain ⟨e, he, h⟩ := List.mem_flatMap.1 h
  rw [Option.mem_toList] at he
  have hclass : LinkWithin p.source p.target e l → p.Covered c.header l := covered_of_resolveAs? he
  unfold classHeaderLinks at h
  simp only [List.mem_cons, List.mem_append] at h
  rcases h with rfl | ((((((((h | h) | h) | h) | h) | h) | h) | h) | h)
  · exact hclass (.refl _ _ l)
  · obtain ⟨keyword, -, hl⟩ := List.mem_flatMap.1 h
    exact hclass (modifierLink_within hl)
  · obtain ⟨k, -, hl⟩ := List.mem_flatMap.1 h
    exact hclass (childLink_within hl)
  · obtain ⟨keyword, -, hl⟩ := List.mem_flatMap.1 h
    exact hclass (modifierLink_within hl)
  · obtain ⟨x, hx, hl⟩ := List.mem_flatMap.1 h
    have hcov : p.Covered [.ofLocations x] l := wholeLinksIf_covered hl
    exact (Covered.map hx hcov).left.left.left.left.left.tail
  · obtain ⟨x, hx, hl⟩ := List.mem_flatMap.1 h
    have hcov : p.Covered [.ofTypes x] l := wholeLinksIf_covered hl
    exact (Covered.map hx hcov).right.left.left.left.left.tail
  · obtain ⟨x, hx, hl⟩ := List.mem_flatMap.1 h
    obtain ⟨y, hy, hname, hcov⟩ := interfaceLinks_covered hl
    have hkept : (x, y) ∈ c.keptInterfaces := by
      refine List.mem_flatMap.2 ⟨x, hx, List.mem_map.2 ⟨y, ?_, rfl⟩⟩
      exact List.mem_filter.2 ⟨hy, by simpa using hname⟩
    have hcov' : p.Covered [.ofTypes (x, y)] l := hcov
    exact (Covered.map hkept hcov').right.left.left.left.tail
  · exact (fieldsLinks_covered h).right.left.left.tail
  · exact (javadocLinks_covered h).right.left.tail
  · obtain ⟨x, hx, hl⟩ := List.mem_flatMap.1 h
    have hcov : p.Covered [.ofLocations x] l := wholeLinksIf_covered hl
    exact (Covered.map hx hcov).right.tail

theorem packageLinks_frame {c : ClassPair} (h : l ∈ p.packageLinks) : c.Frame p.source p.target l := by
  obtain ⟨⟨a, b⟩, he, hl⟩ := List.mem_flatMap.1 h
  obtain ⟨ha, hb⟩ := both?_eq_some_iff.1 (Option.mem_toList.1 he)
  exact .package ha hb (linkWithin_of_mem_overlay hl)

theorem importLinks_frame {c : ClassPair} {name : String} (hname : name ∈ c.imports)
    (h : l ∈ p.importLinks name) : c.Frame p.source p.target l := by
  obtain ⟨⟨a, b⟩, he, hl⟩ := List.mem_flatMap.1 h
  obtain ⟨ha, hb⟩ := both?_eq_some_iff.1 (Option.mem_toList.1 he)
  exact .imports hname ha hb (linkWithin_of_mem_overlay hl)

/-- What two versions of a class come to belongs to the frame of their files or is covered. -/
theorem classFindings_covered {c : ClassPair}
    (h : l ∈ p.settle config (p.classFindings config c)) :
    c.Frame p.source p.target l ∨ p.Covered c.correspondences l := by
  unfold classFindings at h
  simp only [mem_settle_append, settle_immediate, List.mem_cons, List.mem_append] at h
  rcases h with (((rfl | (h | h) | h) | h) | h) | h
  · exact .inl .roots
  · exact .inl (packageLinks_frame h)
  · obtain ⟨name, hname, hl⟩ := List.mem_flatMap.1 h
    exact .inl (importLinks_frame hname hl)
  · obtain ⟨x, hx, hl⟩ := List.mem_flatMap.1 h
    have hcov : p.Covered [{ before := x.1.location, after := x.2.location }] l :=
      covered_of_mem_flatMap hl fun e => Alignment.simpleLinks_within
    exact .inr (Covered.map hx hcov).left.left.left.left
  · exact .inr (members_covered _ h).right.left.left.left
  · exact .inr (classLinks_covered h).right.left.left
  · exact .inr (members_covered _ h).right.left

end FilePair

end Counterpart
