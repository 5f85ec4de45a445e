import Counterpart.Model.ClassPair
import Counterpart.Proofs.Alignment.Identity
import Counterpart.Proofs.FilePair.Coverage

/-!
# Nothing changed

A file paired with itself. Every pass over it that is asked about the same thing twice answers with links
on the diagonal, from a node to itself. For searches this is so because both of them find the same node;
for alignments, because a subtree is aligned with itself place by place; and where parts are shared out
by their kinds, because a part is still free when its turn comes (`pairParts_self`). A class pair in which
everything listed belongs to itself, `ClassPair.IsIdentity`, hence gives nothing off the diagonal
(`classFindings_diagonal`).
-/

namespace Counterpart

/-- Every link joins a node to itself. -/
def Diagonal (ls : List Link) : Prop :=
  ∀ l ∈ ls, l.1 = l.2

namespace Diagonal

variable {ls ms : List Link}

theorem nil : Diagonal [] := fun _ hl => nomatch hl

theorem cons {n : Nat} (h : Diagonal ls) : Diagonal ((n, n) :: ls) := by
  intro l hl
  rcases List.mem_cons.1 hl with rfl | hl
  · rfl
  · exact h l hl

theorem append (hls : Diagonal ls) (hms : Diagonal ms) : Diagonal (ls ++ ms) := fun l hl =>
  (List.mem_append.1 hl).elim (hls l) (hms l)

theorem flatMap {α : Type} {xs : List α} {f : α → List Link} (h : ∀ x ∈ xs, Diagonal (f x)) :
    Diagonal (xs.flatMap f) := by
  intro l hl
  obtain ⟨x, hx, hl⟩ := List.mem_flatMap.1 hl
  exact h x hx l hl

/-- Going on from links on the diagonal. -/
theorem bind {f : Link → List Link} (h : Diagonal ls) (hf : ∀ n, Diagonal (f (n, n))) :
    Diagonal (ls.flatMap f) := by
  refine .flatMap fun l hl => ?_
  obtain ⟨a, b⟩ := l
  obtain rfl : a = b := h (a, b) hl
  exact hf a

/-- Two searches that ask the same. -/
theorem both? (x : Option Nat) : Diagonal (both? x x).toList := by
  cases x with
  | none => exact nil
  | some n => exact cons nil

theorem zip_self (xs : List Nat) : Diagonal (xs.zip xs) := by
  intro l hl
  rw [List.zip, List.zipWith_self] at hl
  obtain ⟨n, -, rfl⟩ := List.mem_map.1 hl
  rfl

end Diagonal

/-! ### Trees -/

theorem Tree.overlay_diagonal (t : Tree) (n : Nat) : Diagonal (t.overlay t n n) := by
  intro l hl
  exact Diagonal.zip_self (t.descendants n) l ((mem_overlay_iff_mem_zip rfl).1 hl)

namespace Alignment

variable (config : AlignmentConfig) (t : Tree) (n : Nat)

theorem align_diagonal : Diagonal (align config t t n n).pairs := by
  intro l hl
  exact t.overlay_diagonal n l ((mem_align_iff_mem_overlay config rfl rfl).1 hl)

theorem simpleLinks_diagonal (wholesale : Bool) : Diagonal (simpleLinks config t t wholesale n n) := by
  intro l hl
  exact t.overlay_diagonal n l ((mem_simpleLinks_iff_mem_overlay config rfl rfl wholesale).1 hl)

/-- Every part gets itself: those before it are taken, and it is the first of its kind that is left. -/
theorem pairParts_self (ns : List Nat) : pairParts t t ns ns = ⟨ns.map fun n => (n, n), [], []⟩ := by
  induction ns with
  | nil => rfl
  | cons n ns ih =>
    have hfirst : (n :: ns).find? (fun d => t.kind d == t.kind n) = some n := by
      rw [List.find?_cons, BEq.rfl]
    rw [pairParts, hfirst]
    simp only [List.erase_cons_head, ih, List.map_cons]

theorem partLinks_diagonal : Diagonal (partLinks config t t (n, n)) := by
  unfold partLinks
  split
  · exact t.overlay_diagonal n
  · exact align_diagonal config t n

theorem blockLinks_diagonal : Diagonal (blockLinks t t n n) :=
  .both? _

theorem compositeLinks_diagonal : Diagonal (compositeLinks config t t n n) := by
  have hleading : Diagonal (if haveLeadingBlocks t t n n then blockLinks t t n n else []) := by
    split
    · exact blockLinks_diagonal t n
    · exact .nil
  have hblocks : Diagonal (((nestedBlocks t n).zip (nestedBlocks t n)).filter fun l =>
      t.kind l.1 == t.kind l.2) := fun l hl =>
    Diagonal.zip_self _ l (List.mem_filter.1 hl).1
  have hparts : Diagonal (((ownParts t n).map fun m => (m, m)).flatMap (partLinks config t t)) := by
    rw [List.flatMap_map]
    exact .flatMap fun m _ => partLinks_diagonal config t m
  unfold compositeLinks
  rw [pairParts_self]
  -- no part is left over, so no copies are looked for
  exact .cons (((hleading.append hblocks).append hparts).append .nil)

end Alignment

/-! ### A file and itself -/

namespace FilePair

/-- A file paired with itself. -/
def twice (path : String) (t : Tree) : FilePair where
  sourcePath := path
  targetPath := path
  source := t
  target := t

variable (config : AlignmentConfig) (path : String) (t : Tree)

theorem resolveBy?_twice (find : Location → Tree → Option Nat) (x : Location) :
    Diagonal ((twice path t).resolveBy? find x x).toList := by
  unfold resolveBy?
  split
  · exact .both? _
  · exact .nil

theorem wholeLinksIf_diagonal (fits : Link → Bool) (x : Location) :
    Diagonal ((twice path t).wholeLinksIf fits x x) := by
  refine .bind (fun l hl => ?_) t.overlay_diagonal
  have hfound := (Option.filter_eq_some_iff.1 (Option.mem_toList.1 hl)).1
  exact resolveBy?_twice path t _ x l (Option.mem_toList.2 hfound)

theorem wholeLinks_diagonal (x : Location) : Diagonal ((twice path t).wholeLinks x x) :=
  (resolveBy?_twice path t _ x).bind t.overlay_diagonal

theorem javadocLinks_diagonal (x : Option Javadoc) : Diagonal ((twice path t).javadocLinks x x) := by
  cases x with
  | none => exact .nil
  | some x =>
    rw [javadocLinks]
    split
    · exact wholeLinks_diagonal path t x.location
    · exact .nil

theorem childLink_diagonal (n : Nat) (k : Kind) : Diagonal ((twice path t).childLink (n, n) k) :=
  .both? _

theorem firstChildLink_diagonal (n : Nat) : Diagonal ((twice path t).firstChildLink (n, n)) :=
  .both? _

theorem modifierLink_diagonal (n : Nat) (keyword : String) :
    Diagonal ((twice path t).modifierLink (n, n) keyword) :=
  .both? _

theorem anchorLinks_diagonal (n : Nat) : Diagonal ((twice path t).anchorLinks (n, n)) :=
  .flatMap fun k _ => childLink_diagonal path t n k

/-! ### Fields and declarations -/

/-- A field declaration has its own digest, so it is linked as a whole. -/
theorem fieldLinks_diagonal (x : Attribute) : Diagonal ((twice path t).fieldLinks config x x) := by
  unfold fieldLinks
  split
  · exact .nil
  next declarator hdeclarator =>
  obtain ⟨a, b⟩ := declarator
  obtain rfl : a = b := resolveBy?_twice path t _ x.location _ (Option.mem_toList.2 hdeclarator)
  split
  · exact .nil
  next declaration hdeclaration =>
  obtain ⟨d, e⟩ := declaration
  obtain rfl : d = e := Diagonal.both? (t.parent a) _ (Option.mem_toList.2 hdeclaration)
  have hsame : (twice path t).isSameDeclaration (d, d) = true := by
    simp [isSameDeclaration, twice]
  rw [if_pos hsame]
  exact t.overlay_diagonal d

theorem fieldsLinks_diagonal {fs : List (Attribute × Attribute)} (h : ∀ f ∈ fs, f.1 = f.2) :
    Diagonal ((twice path t).fieldsLinks config fs) := by
  refine .flatMap fun f hf => ?_
  rw [h f hf]
  exact fieldLinks_diagonal config path t f.2

theorem operationLinks_diagonal (x : Operation) : Diagonal ((twice path t).operationLinks x x) :=
  (resolveBy?_twice path t _ x.location).bind fun n =>
    .cons ((anchorLinks_diagonal path t n).append
      (.flatMap fun keyword _ => modifierLink_diagonal path t n keyword))

theorem otherContainerLinks_diagonal (bothStatic : Bool) (x : Location) :
    Diagonal ((twice path t).otherContainerLinks bothStatic x x) := by
  refine (resolveBy?_twice path t _ x).bind fun n => .cons (.append ?_ (anchorLinks_diagonal path t n))
  split
  · exact firstChildLink_diagonal path t n
  · exact .nil

theorem containerLinks_diagonal (x : Container) : Diagonal ((twice path t).containerLinks x x) := by
  cases x with
  | operation x => exact (javadocLinks_diagonal path t x.javadoc).append (operationLinks_diagonal path t x)
  | initializerBlock x => exact otherContainerLinks_diagonal path t _ x.location

end FilePair

/-! ### Bodies -/

/-- Every part of a signature belongs to itself. -/
structure SignaturePair.IsIdentity (s : SignaturePair) : Prop where
  typeParameters : ∀ x ∈ s.typeParameters, x.1 = x.2
  annotations : ∀ x ∈ s.annotations, x.1 = x.2
  exceptionTypes : ∀ x ∈ s.exceptionTypes, x.1 = x.2
  returnTypes : ∀ x ∈ s.returnTypes, x.1 = x.2

mutual

/-- A body that belongs to itself, with all that it lists, at any depth. -/
inductive BodyPair.IsIdentity : BodyPair → Prop
  | intro {b : BodyPair} (container : b.before = b.after)
      (signature : ∀ s ∈ b.signature, s.IsIdentity)
      (matchedVariables : ∀ x ∈ b.matchedVariables, x.1 = x.2)
      (fragments : ∀ f ∈ b.fragments, f.before = f.after)
      (anonymousClasses : ∀ a ∈ b.anonymousClasses, a.IsIdentity) : b.IsIdentity

/-- An anonymous class that belongs to itself. -/
inductive AnonymousClassPair.IsIdentity : AnonymousClassPair → Prop
  | intro {a : AnonymousClassPair} (attributes : ∀ x ∈ a.attributes, x.1 = x.2)
      (members : ∀ b ∈ a.members, b.IsIdentity) : a.IsIdentity

end

/-- A body lists the fragments, itself or in an anonymous class at any depth. -/
inductive BodyPair.Holds : BodyPair → FragmentPair → Prop
  | here {b : BodyPair} {f : FragmentPair} (hf : f ∈ b.fragments) : b.Holds f
  | nested {b m : BodyPair} {a : AnonymousClassPair} {f : FragmentPair} (ha : a ∈ b.anonymousClasses)
      (hm : m ∈ a.members) (h : m.Holds f) : b.Holds f

theorem BodyPair.Holds.before_eq {b : BodyPair} {f : FragmentPair} (h : b.Holds f)
    (hb : b.IsIdentity) : f.before = f.after := by
  induction h with
  | here hf =>
    obtain ⟨-, -, -, hfragments, -⟩ := hb
    exact hfragments _ hf
  | nested ha hm _ ih =>
    obtain ⟨-, -, -, -, hanonymous⟩ := hb
    obtain ⟨-, hmembers⟩ := hanonymous _ ha
    exact ih (hmembers _ hm)

namespace FilePair

variable (config : AlignmentConfig) (path : String) (t : Tree)

theorem signatureLinks_diagonal {s : SignaturePair} (h : s.IsIdentity) :
    Diagonal ((twice path t).signatureLinks s) := by
  have hpair : ∀ x ∈ s.typeParameters ++ s.annotations ++ s.exceptionTypes, x.1 = x.2 := by
    simp only [List.mem_append]
    rintro x ((hx | hx) | hx)
    · exact h.typeParameters x hx
    · exact h.annotations x hx
    · exact h.exceptionTypes x hx
  refine .append (.flatMap fun x hx => ?_) (.flatMap fun x hx => ?_)
  · rw [hpair x hx]
    exact wholeLinks_diagonal path t x.2
  · rw [h.returnTypes x (Option.mem_toList.1 hx)]
    exact wholeLinksIf_diagonal path t _ x.2

theorem declarationLinks_diagonal {b : BodyPair} (h : b.IsIdentity) :
    Diagonal ((twice path t).declarationLinks b) := by
  obtain ⟨hcontainer, hsignature, hvariables, -, -⟩ := h
  refine .append (.append (.flatMap fun s hs => ?_) (.flatMap fun x hx => ?_)) ?_
  · exact signatureLinks_diagonal path t (hsignature s (Option.mem_toList.1 hs))
  · rw [hvariables x hx]
    exact wholeLinksIf_diagonal path t _ x.2.location
  · rw [hcontainer]
    exact containerLinks_diagonal path t b.after

theorem compositeLinks_diagonal (n : Nat) : Diagonal (compositeLinks config (twice path t) (n, n)) := by
  have hparts := Alignment.compositeLinks_diagonal config t n
  have hblocks := Alignment.blockLinks_diagonal t n
  unfold compositeLinks
  dsimp only
  split
  · exact .cons hblocks
  split
  · exact .cons (hblocks.append hparts)
  split
  · exact .cons .nil
  · exact .cons hparts

theorem fragmentLinks_diagonal {f : FragmentPair} (h : f.before = f.after) :
    Diagonal ((twice path t).fragmentLinks config f) := by
  rw [fragmentLinks, h]
  refine (resolveBy?_twice path t _ f.after.location).bind fun n => ?_
  split
  · exact Alignment.simpleLinks_diagonal config t n false
  · exact compositeLinks_diagonal config path t n

mutual

theorem body_diagonal : ∀ b : BodyPair, b.IsIdentity →
    Diagonal ((twice path t).settle config (bodyFindings config (twice path t) b))
  | ⟨_, _, _, _, _, anonymousClasses⟩, ⟨_, _, _, hfragments, hanonymous⟩ => by
    intro l hl
    rcases mem_settle_body.1 hl with hl | ⟨f, hf, hl⟩
    · exact anonymous_diagonal anonymousClasses hanonymous l hl
    · exact fragmentLinks_diagonal config path t (hfragments f hf) l hl

theorem anonymous_diagonal : ∀ as : List AnonymousClassPair, (∀ a ∈ as, a.IsIdentity) →
    Diagonal ((twice path t).settle config (anonymousFindings config (twice path t) as))
  | [], _ => .nil
  | ⟨attributes, members⟩ :: rest, h => by
    intro l hl
    obtain ⟨hattributes, hmembers⟩ := h _ List.mem_cons_self
    rw [anonymousFindings, mem_settle_append, mem_settle_append, settle_immediate] at hl
    rcases hl with (hl | hl) | hl
    · exact fieldsLinks_diagonal config path t hattributes l hl
    · exact members_diagonal members hmembers l hl
    · exact anonymous_diagonal rest (fun a ha => h a (List.mem_cons_of_mem _ ha)) l hl

theorem members_diagonal : ∀ bs : List BodyPair, (∀ b ∈ bs, b.IsIdentity) →
    Diagonal ((twice path t).settle config (memberFindings config (twice path t) bs))
  | [], _ => .nil
  | b :: rest, h => by
    intro l hl
    have hb := h b List.mem_cons_self
    rw [memberFindings, mem_settle_append, mem_settle_append, settle_immediate] at hl
    rcases hl with (hl | hl) | hl
    · exact declarationLinks_diagonal path t hb l hl
    · exact body_diagonal b hb l hl
    · exact members_diagonal rest (fun x hx => h x (List.mem_cons_of_mem _ hx)) l hl

end

variable {config path t}

/-- What the fragments come to that a body holds is among what the body comes to. -/
theorem mem_settle_body_of_holds {p : FilePair} {b : BodyPair} {f : FragmentPair} {l : Link}
    (h : b.Holds f) (hl : l ∈ p.fragmentLinks config f) :
    l ∈ p.settle config (bodyFindings config p b) := by
  induction h with
  | here hf => exact mem_settle_body.2 (.inr ⟨_, hf, hl⟩)
  | nested ha hm _ ih =>
    refine mem_settle_body.2 (.inl (mem_settle_anonymous.2 ⟨_, ha, .inr ?_⟩))
    exact mem_settle_members.2 ⟨_, hm, .inr (ih hl)⟩

end FilePair

/-! ### Classes -/

/-- A class that belongs to itself, with all that is listed for it, and without refactorings. -/
structure ClassPair.IsIdentity (c : ClassPair) : Prop where
  descriptor : c.before = c.after
  distinctInterfaces : (c.before.interfaces.map TypeRef.name).Nodup
  enumConstants : ∀ x ∈ c.enumConstants, x.1 = x.2
  constantBodies : ∀ e ∈ c.changedConstants, ∀ a ∈ e.classBody, a.IsIdentity
  typeParameters : ∀ x ∈ c.typeParameters, x.1 = x.2
  attributes : ∀ x ∈ c.attributes, x.1 = x.2
  annotations : ∀ x ∈ c.annotations, x.1 = x.2
  bodies : ∀ b ∈ c.bodies, b.IsIdentity
  refactorings : c.refactorings = []

namespace FilePair

variable (config : AlignmentConfig) (path : String) (t : Tree)

/-- Among interfaces of distinct names the namesake of an interface is the interface itself. -/
theorem interfaceLinks_diagonal {xs : List TypeRef} (h : (xs.map TypeRef.name).Nodup) {x : TypeRef}
    (hx : x ∈ xs) : Diagonal ((twice path t).interfaceLinks xs x) := by
  have hnamesake : xs.find? (fun y => y.name == x.name) = some x :=
    find?_eq_some_of_unique hx BEq.rfl fun y hy hname =>
      List.inj_on_of_nodup_map h hy hx (by simpa using hname)
  rw [interfaceLinks, hnamesake]
  exact (wholeLinks_diagonal path t x.location).append .nil

theorem classHeaderLinks_diagonal {c : ClassPair} (h : c.IsIdentity) (n : Nat) :
    Diagonal (classHeaderLinks config (twice path t) c (n, n)) := by
  have hkeywords : ∀ keywords : List String,
      Diagonal (keywords.flatMap ((twice path t).modifierLink (n, n))) := fun keywords =>
    .flatMap fun keyword _ => modifierLink_diagonal path t n keyword
  have hlocations : ∀ {xs : List (Location × Location)}, (∀ x ∈ xs, x.1 = x.2) →
      Diagonal (xs.flatMap fun x => (twice path t).wholeLinksIf (twice path t).isSameShape x.1 x.2) := by
    intro xs hxs
    refine .flatMap fun x hx => ?_
    rw [hxs x hx]
    exact wholeLinksIf_diagonal path t _ x.2
  have hsuperclass : Diagonal ((both? c.after.superclass c.after.superclass).toList.flatMap fun x =>
      (twice path t).wholeLinksIf (twice path t).isIsomorphic x.1.location x.2.location) := by
    cases c.after.superclass with
    | none => exact .nil
    | some x => exact (wholeLinksIf_diagonal path t _ x.location).append .nil
  have hinterfaces := h.distinctInterfaces
  unfold classHeaderLinks
  rw [h.descriptor] at hinterfaces ⊢
  refine .cons (.append (.append (.append (.append (.append (.append (.append (.append
    (hkeywords _) ?_) (hkeywords _)) (hlocations h.typeParameters)) hsuperclass) ?_) ?_)
    (javadocLinks_diagonal path t _)) (hlocations h.annotations))
  · exact .flatMap fun k _ => childLink_diagonal path t n k
  · exact .flatMap fun x hx => interfaceLinks_diagonal path t hinterfaces (List.mem_filter.1 hx).1
  · exact fieldsLinks_diagonal config path t h.attributes

theorem classLinks_diagonal {c : ClassPair} (h : c.IsIdentity) :
    Diagonal ((twice path t).classLinks config c) := by
  have hclass := resolveBy?_twice path t
    (fun x t => x.resolveAs t c.before.kind.declaration) c.before.location
  rw [classLinks, ← h.descriptor]
  exact hclass.bind (classHeaderLinks_diagonal config path t h)

/-- Whatever a class that belongs to itself comes to joins a node to itself. -/
theorem classFindings_diagonal {c : ClassPair} (h : c.IsIdentity) :
    Diagonal ((twice path t).settle config ((twice path t).classFindings config c)) := by
  have hconstants : ∀ b ∈ c.changedConstants.flatMap fun e =>
      e.classBody.toList.flatMap AnonymousClassPair.members, b.IsIdentity := by
    intro b hb
    obtain ⟨e, he, hb⟩ := List.mem_flatMap.1 hb
    obtain ⟨a, ha, hb⟩ := List.mem_flatMap.1 hb
    obtain ⟨-, hmembers⟩ := h.constantBodies e he a (Option.mem_toList.1 ha)
    exact hmembers b hb
  have himport : ∀ name, Diagonal ((twice path t).importLinks name) := fun name =>
    (Diagonal.both? (importOf? t name)).bind t.overlay_diagonal
  have henum : Diagonal (c.enumConstants.flatMap fun e =>
      (twice path t).enumConstantLinks config e.1 e.2) := by
    refine .flatMap fun e he => ?_
    rw [h.enumConstants e he]
    exact (resolveBy?_twice path t _ _).bind fun n => Alignment.simpleLinks_diagonal config t n false
  intro l hl
  unfold classFindings at hl
  simp only [mem_settle_append, settle_immediate, List.mem_cons, List.mem_append] at hl
  rcases hl with (((rfl | (hl | hl) | hl) | hl) | hl) | hl
  · rfl
  · exact (childLink_diagonal path t Tree.root _).bind t.overlay_diagonal l hl
  · exact Diagonal.flatMap (fun name _ => himport name) l hl
  · exact henum l hl
  · exact members_diagonal config path t _ hconstants l hl
  · exact classLinks_diagonal config path t h l hl
  · exact members_diagonal config path t _ h.bodies l hl

end FilePair

end Counterpart
