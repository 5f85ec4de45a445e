import Counterpart.Proofs.Outcome.Relation

/-!
# Lists inside a class pair

`ClassPair.Slot C` says that `C` puts a list into one place of a class pair and leaves the rest as it is.
The places are the lists of the class pair itself and those of all bodies, signatures and anonymous
classes in it, at any depth and also inside its refactorings. Whatever a class pair relates is additive
in each of them (`additive_relates`): it is related for a list if it is for one of two parts of it. The
proof follows the slots, from signatures over bodies and anonymous classes to refactorings.
-/

namespace Counterpart

variable {α : Type}

/-- Functions that put a list into one place of two signatures. -/
inductive SignaturePair.Slot : {α : Type} → (List α → SignaturePair) → Prop
  | typeParameters (s : SignaturePair) : Slot fun xs => { s with typeParameters := xs }
  | annotations (s : SignaturePair) : Slot fun xs => { s with annotations := xs }
  | exceptionTypes (s : SignaturePair) : Slot fun xs => { s with exceptionTypes := xs }

mutual

/-- Functions that put a list into one place of two bodies. -/
inductive BodyPair.Slot : {α : Type} → (List α → BodyPair) → Prop
  | matchedVariables (b : BodyPair) : BodyPair.Slot fun xs => { b with matchedVariables := xs }
  | fragments (b : BodyPair) : BodyPair.Slot fun xs => { b with fragments := xs }
  | anonymousClasses (b : BodyPair) : BodyPair.Slot fun xs => { b with anonymousClasses := xs }
  | signature (b : BodyPair) {α : Type} {s : List α → SignaturePair} (hs : SignaturePair.Slot s) :
    BodyPair.Slot fun xs => { b with signature := some (s xs) }
  | anonymousClass (b : BodyPair) (before after : List AnonymousClassPair) {α : Type}
    {a : List α → AnonymousClassPair} (ha : AnonymousClassPair.Slot a) :
    BodyPair.Slot fun xs => { b with anonymousClasses := before ++ a xs :: after }

/-- Functions that put a list into one place of two anonymous classes. -/
inductive AnonymousClassPair.Slot : {α : Type} → (List α → AnonymousClassPair) → Prop
  | attributes (a : AnonymousClassPair) :
    AnonymousClassPair.Slot fun xs => { a with attributes := xs }
  | members (a : AnonymousClassPair) : AnonymousClassPair.Slot fun xs => { a with members := xs }
  | member (a : AnonymousClassPair) (before after : List BodyPair) {α : Type}
    {b : List α → BodyPair} (hb : BodyPair.Slot b) :
    AnonymousClassPair.Slot fun xs => { a with members := before ++ b xs :: after }

end

/-- Functions that put a list into one place of the bodies of a refactoring. -/
inductive Refactoring.Slot : {α : Type} → (List α → Refactoring) → Prop
  | relocateOperation (how : Relocation) (old new : Operation) {α : Type} {b : List α → BodyPair}
    (hb : BodyPair.Slot b) : Slot fun xs => relocateOperation how old new (b xs)
  | shareBody (how : Sharing) {α : Type} {b : List α → BodyPair} (hb : BodyPair.Slot b) :
    Slot fun xs => shareBody how (b xs)

/-- Functions that put a list into one place of a class pair. -/
inductive ClassPair.Slot : {α : Type} → (List α → ClassPair) → Prop
  | imports (c : ClassPair) : Slot fun xs => { c with imports := xs }
  | enumConstants (c : ClassPair) : Slot fun xs => { c with enumConstants := xs }
  | changedConstants (c : ClassPair) : Slot fun xs => { c with changedConstants := xs }
  | typeParameters (c : ClassPair) : Slot fun xs => { c with typeParameters := xs }
  | attributes (c : ClassPair) : Slot fun xs => { c with attributes := xs }
  | annotations (c : ClassPair) : Slot fun xs => { c with annotations := xs }
  | bodies (c : ClassPair) : Slot fun xs => { c with bodies := xs }
  | refactorings (c : ClassPair) : Slot fun xs => { c with refactorings := xs }
  | changedConstant (c : ClassPair) (before after : List EnumConstantPair) (name : String)
    {α : Type} {a : List α → AnonymousClassPair} (ha : AnonymousClassPair.Slot a) :
    Slot fun xs => { c with changedConstants := before ++ ⟨name, some (a xs)⟩ :: after }
  | body (c : ClassPair) (before after : List BodyPair) {α : Type} {b : List α → BodyPair}
    (hb : BodyPair.Slot b) : Slot fun xs => { c with bodies := before ++ b xs :: after }
  | refactoring (c : ClassPair) (before after : List Refactoring) {α : Type}
    {r : List α → Refactoring} (hr : Refactoring.Slot r) :
    Slot fun xs => { c with refactorings := before ++ r xs :: after }

/-! ### Additive properties of lists -/

/-- A property that a list has exactly if one of two parts of it has it. -/
def Additive (φ : List α → Prop) : Prop :=
  ∀ xs ys, φ (xs ++ ys) ↔ φ xs ∨ φ ys

namespace Additive

variable {φ ψ : List α → Prop}

theorem const (P : Prop) : Additive fun _ : List α => P := by
  intro xs ys
  exact (or_self_iff).symm

theorem or (h : Additive φ) (h' : Additive ψ) : Additive fun xs => φ xs ∨ ψ xs := by
  intro xs ys
  show φ (xs ++ ys) ∨ ψ (xs ++ ys) ↔ (φ xs ∨ ψ xs) ∨ φ ys ∨ ψ ys
  rw [h xs ys, h' xs ys]
  exact or_or_or_comm

theorem const_or (P : Prop) (h : Additive φ) : Additive fun xs => P ∨ φ xs :=
  (const P).or h

theorem or_const (P : Prop) (h : Additive φ) : Additive fun xs => φ xs ∨ P :=
  h.or (const P)

theorem exists_of_forall {β : Type} {θ : β → List α → Prop} (h : ∀ y, Additive (θ y)) :
    Additive fun xs => ∃ y, θ y xs := by
  intro xs ys
  show (∃ y, θ y (xs ++ ys)) ↔ (∃ y, θ y xs) ∨ ∃ y, θ y ys
  rw [← exists_or]
  exact exists_congr fun y => h y xs ys

theorem and (P : Prop) (h : Additive φ) : Additive fun xs => P ∧ φ xs := by
  intro xs ys
  show P ∧ φ (xs ++ ys) ↔ P ∧ φ xs ∨ P ∧ φ ys
  rw [h xs ys]
  exact and_or_left

theorem congr (h : Additive ψ) (hiff : ∀ xs, φ xs ↔ ψ xs) : Additive φ := by
  intro xs ys
  rw [hiff, hiff, hiff]
  exact h xs ys

theorem exists_mem (P : α → Prop) : Additive fun xs => ∃ x ∈ xs, P x := by
  intro xs ys
  simp only [List.mem_append, or_and_right, exists_or]

/-- One member of a list depends on another list. -/
theorem exists_mem_splice {β : Type} {g : List α → β} {P : β → Prop} (before after : List β)
    (h : Additive fun xs => P (g xs)) : Additive fun xs => ∃ y ∈ before ++ g xs :: after, P y := by
  refine congr ((h.or_const (∃ y ∈ after, P y)).const_or (∃ y ∈ before, P y)) fun xs => ?_
  simp only [List.mem_append, List.mem_cons, or_and_right, exists_or, exists_eq_left]

/-- An additive property is one of the members. -/
theorem iff_exists (h : Additive φ) (xs : List α) : φ xs ↔ φ [] ∨ ∃ x ∈ xs, φ [x] := by
  induction xs with
  | nil => simp
  | cons x xs ih =>
    have hcons : φ (x :: xs) ↔ φ [x] ∨ φ xs := h [x] xs
    rw [hcons, ih]
    simp only [List.mem_cons, or_and_right, exists_or, exists_eq_left]
    exact or_left_comm

theorem congr_mem (h : Additive φ) {xs ys : List α} (hmem : ∀ x, x ∈ xs ↔ x ∈ ys) :
    φ xs ↔ φ ys := by
  rw [h.iff_exists, h.iff_exists ys]
  simp only [hmem]

end Additive

namespace FilePair

variable {config : AlignmentConfig} {p : FilePair} {l : Link}

theorem mem_signatureLinks {s : SignaturePair} :
    l ∈ p.signatureLinks s ↔ (∃ x ∈ s.typeParameters, l ∈ p.wholeLinks x.1 x.2) ∨
      (∃ x ∈ s.annotations, l ∈ p.wholeLinks x.1 x.2) ∨
      (∃ x ∈ s.exceptionTypes, l ∈ p.wholeLinks x.1 x.2) ∨
      ∃ x ∈ s.returnTypes.toList, l ∈ p.wholeLinksIf p.isSameShape x.1 x.2 := by
  simp only [signatureLinks, List.mem_append, List.mem_flatMap, or_and_right, exists_or, or_assoc]

theorem mem_declarationLinks {b : BodyPair} :
    l ∈ p.declarationLinks b ↔ (∃ s ∈ b.signature.toList, l ∈ p.signatureLinks s) ∨
      (∃ x ∈ b.matchedVariables, l ∈ p.parameterLinks x.1 x.2) ∨
      l ∈ p.containerLinks b.before b.after := by
  simp only [declarationLinks, List.mem_append, List.mem_flatMap, or_assoc]

theorem mem_fieldsLinks {fs : List (Attribute × Attribute)} :
    l ∈ p.fieldsLinks config fs ↔ ∃ f ∈ fs, l ∈ p.fieldLinks config f.1 f.2 :=
  List.mem_flatMap

theorem additive_signature {s : List α → SignaturePair} (hs : SignaturePair.Slot s) :
    Additive fun xs => l ∈ p.signatureLinks (s xs) := by
  cases hs with
  | typeParameters s =>
    simp only [mem_signatureLinks]
    exact .or_const _ (.exists_mem _)
  | annotations s =>
    simp only [mem_signatureLinks]
    exact .const_or _ (.or_const _ (.exists_mem _))
  | exceptionTypes s =>
    simp only [mem_signatureLinks]
    exact .const_or _ (.const_or _ (.or_const _ (.exists_mem _)))

theorem additive_declaration {b : List α → BodyPair} (hb : BodyPair.Slot b) :
    Additive fun xs => l ∈ p.declarationLinks (b xs) := by
  cases hb with
  | matchedVariables b =>
    simp only [mem_declarationLinks]
    exact .const_or _ (.or_const _ (.exists_mem _))
  | fragments b => exact .const (l ∈ p.declarationLinks b)
  | anonymousClasses b => exact .const (l ∈ p.declarationLinks b)
  | signature b hs =>
    simp only [mem_declarationLinks, Option.toList_some, List.mem_singleton, exists_eq_left]
    exact .or_const _ (additive_signature hs)
  | anonymousClass b before after ha => exact .const (l ∈ p.declarationLinks b)

theorem additive_fields {a : List α → AnonymousClassPair} (ha : AnonymousClassPair.Slot a) :
    Additive fun xs => l ∈ p.fieldsLinks config (a xs).attributes := by
  cases ha with
  | attributes a =>
    simp only [mem_fieldsLinks]
    exact .exists_mem _
  | members a => exact .const (l ∈ p.fieldsLinks config a.attributes)
  | member a before after hb => exact .const (l ∈ p.fieldsLinks config a.attributes)

mutual

/-- What the insides of two bodies come to is additive in every list of theirs. -/
theorem additive_body {l : Link} : ∀ {α : Type} {b : List α → BodyPair}, BodyPair.Slot b →
    Additive fun xs => l ∈ p.settle config (bodyFindings config p (b xs))
  | _, _, .matchedVariables b => by
    -- Variables and signatures belong to the declaration around the body.
    simp only [mem_settle_body]
    exact .const _
  | _, _, .fragments b => by
    simp only [mem_settle_body]
    exact .const_or _ (.exists_mem _)
  | _, _, .anonymousClasses b => by
    simp only [mem_settle_body, mem_settle_anonymous]
    exact .or_const _ (.exists_mem _)
  | _, _, .signature b hs => by
    simp only [mem_settle_body]
    exact .const _
  | _, _, .anonymousClass b before after ha => by
    simp only [mem_settle_body, mem_settle_anonymous]
    refine .or_const _ (.exists_mem_splice before after ?_)
    exact (additive_fields ha).or (additive_members ha)

/-- What the members of two anonymous classes come to is additive in every list of theirs. -/
theorem additive_members {l : Link} : ∀ {α : Type} {a : List α → AnonymousClassPair},
    AnonymousClassPair.Slot a →
      Additive fun xs => l ∈ p.settle config (memberFindings config p (a xs).members)
  | _, _, .attributes a => .const (l ∈ p.settle config (memberFindings config p a.members))
  | _, _, .members a => by
    simp only [mem_settle_members]
    exact .exists_mem _
  | _, _, .member a before after hb => by
    simp only [mem_settle_members]
    refine .exists_mem_splice before after ?_
    exact (additive_declaration hb).or (additive_body hb)

end

/-! ### Classes -/

/-- The lists of a class pair in the links between the declarations; the rest depends on the two
classes only. -/
theorem mem_classLinks {c : ClassPair} :
    l ∈ p.classLinks config c ↔
      ∃ e, e ∈ (p.resolveAs? c.before.location c.after.location c.before.kind.declaration).toList ∧
        (l ∈ p.classHeaderLinks config
          { before := c.before, after := c.after, removedInterfaces := c.removedInterfaces } e ∨
        (∃ t ∈ c.typeParameters, l ∈ p.wholeLinksIf p.isSameShape t.1 t.2) ∨
        (∃ f ∈ c.attributes, l ∈ p.fieldLinks config f.1 f.2) ∨
        ∃ t ∈ c.annotations, l ∈ p.wholeLinksIf p.isSameShape t.1 t.2) := by
  rw [classLinks, List.mem_flatMap]
  refine exists_congr fun e => and_congr_right fun _ => ?_
  simp only [classHeaderLinks, mem_fieldsLinks, List.mem_cons, List.mem_append, List.mem_flatMap]
  grind

theorem mem_classFindings {c : ClassPair} :
    l ∈ p.settle config (p.classFindings config c) ↔
      (l = (Tree.root, Tree.root) ∨ l ∈ p.packageLinks) ∨
      (∃ name ∈ c.imports, l ∈ p.importLinks name) ∨
      (∃ e ∈ c.enumConstants, l ∈ p.enumConstantLinks config e.1 e.2) ∨
      (∃ e ∈ c.changedConstants, ∃ a ∈ e.classBody.toList,
        l ∈ p.settle config (memberFindings config p a.members)) ∨
      l ∈ p.classLinks config c ∨
      ∃ b ∈ c.bodies, l ∈ p.declarationLinks b ∨ l ∈ p.settle config (bodyFindings config p b) := by
  simp only [classFindings, mem_settle_append, settle_immediate, mem_settle_members, List.mem_cons,
    List.mem_append, List.mem_flatMap]
  -- The bodies of changed constants are gathered into one list first; all else is regrouping.
  grind

/-- What is found in the files of a class pair is additive in every list of it. -/
theorem additive_class {c : List α → ClassPair} (hc : ClassPair.Slot c) :
    Additive fun xs => l ∈ p.settle config (p.classFindings config (c xs)) := by
  cases hc with
  | imports c =>
    simp only [mem_classFindings, mem_classLinks]
    exact .const_or _ (.or_const _ (.exists_mem _))
  | enumConstants c =>
    simp only [mem_classFindings, mem_classLinks]
    exact .const_or _ (.const_or _ (.or_const _ (.exists_mem _)))
  | changedConstants c =>
    simp only [mem_classFindings, mem_classLinks]
    exact .const_or _ (.const_or _ (.const_or _ (.or_const _ (.exists_mem _))))
  | typeParameters c =>
    simp only [mem_classFindings, mem_classLinks]
    refine .const_or _ (.const_or _ (.const_or _ (.const_or _ (.or_const _ ?_))))
    exact .exists_of_forall fun e => .and _ (.const_or _ (.or_const _ (.exists_mem _)))
  | attributes c =>
    simp only [mem_classFindings, mem_classLinks]
    refine .const_or _ (.const_or _ (.const_or _ (.const_or _ (.or_const _ ?_))))
    exact .exists_of_forall fun e => .and _ (.const_or _ (.const_or _ (.or_const _ (.exists_mem _))))
  | annotations c =>
    simp only [mem_classFindings, mem_classLinks]
    refine .const_or _ (.const_or _ (.const_or _ (.const_or _ (.or_const _ ?_))))
    exact .exists_of_forall fun e => .and _ (.const_or _ (.const_or _ (.const_or _ (.exists_mem _))))
  | bodies c =>
    simp only [mem_classFindings, mem_classLinks]
    exact .const_or _ (.const_or _ (.const_or _ (.const_or _ (.const_or _ (.exists_mem _)))))
  | refactorings c =>
    simp only [mem_classFindings, mem_classLinks]
    exact .const _
  | changedConstant c before after name ha =>
    simp only [mem_classFindings, mem_classLinks]
    refine .const_or _ (.const_or _ (.const_or _ (.or_const _ (.exists_mem_splice before after ?_))))
    simp only [Option.toList_some, List.mem_singleton, exists_eq_left]
    exact additive_members ha
  | body c before after hb =>
    simp only [mem_classFindings, mem_classLinks]
    refine .const_or _ (.const_or _ (.const_or _ (.const_or _ (.const_or _ ?_))))
    exact .exists_mem_splice before after ((additive_declaration hb).or (additive_body hb))
  | refactoring c before after hr =>
    simp only [mem_classFindings, mem_classLinks]
    exact .const _

end FilePair

/-! ### Refactorings -/

namespace Refactoring

variable {config : AlignmentConfig} {v : Versions} {source target : String} {l : Link}

/-- What a refactoring adds that looks at one file pair. -/
theorem adds_iff_of_step {r : Refactoring} {x y : Location} {f : FilePair → Findings}
    (h : r.steps config v = [(v.filePairOf x y).map fun p => ⟨p, f p⟩]) :
    r.Adds config v source target l ↔ ∃ p, v.filePairOf x y = .ok p ∧
      p.sourcePath = source ∧ p.targetPath = target ∧ l ∈ p.settle config (f p) := by
  rw [Adds, attempt, h]
  cases v.filePairOf x y with
  | error w => simp [Attempt.ofSteps, Except.map]
  | ok p => simp [Attempt.ofSteps, Except.map, Contribution.Adds]

theorem warning_eq_of_step {r : Refactoring} {x y : Location} {f : FilePair → Findings}
    (h : r.steps config v = [(v.filePairOf x y).map fun p => ⟨p, f p⟩]) :
    (r.attempt config v).warning = match v.filePairOf x y with
      | .error w => some w
      | .ok _ => none := by
  rw [attempt, h]
  cases v.filePairOf x y <;> rfl

/-- A body stays where it is. -/
theorem containers_eq {b : List α → BodyPair} (hb : BodyPair.Slot b) (xs ys : List α) :
    (b xs).before = (b ys).before ∧ (b xs).after = (b ys).after := by
  cases hb <;> exact ⟨rfl, rfl⟩

theorem additive_adds {r : List α → Refactoring} (hr : Slot r) :
    Additive fun xs => (r xs).Adds config v source target l := by
  cases hr with
  | relocateOperation how old new hb =>
    refine .congr ?_ fun xs => adds_iff_of_step rfl
    simp only [FilePair.mem_settle_operation]
    refine .exists_of_forall fun p => .and _ (.and _ (.and _ ?_))
    exact (FilePair.additive_declaration hb).or (FilePair.additive_body hb)
  | shareBody how hb =>
    -- The file pair is that of the containers, which no list touches.
    refine .congr ?_ fun xs => adds_iff_of_step rfl
    simp only [fun xs => (containers_eq hb xs []).1, fun xs => (containers_eq hb xs []).2]
    exact .exists_of_forall fun p => .and _ (.and _ (.and _ (FilePair.additive_body hb)))

/-- Whether there is a warning does not depend on what the bodies hold. -/
theorem warning_eq_of_slot {r : List α → Refactoring} (hr : Slot r) (xs ys : List α) :
    ((r xs).attempt config v).warning = ((r ys).attempt config v).warning := by
  cases hr with
  | relocateOperation how old new hb => rw [warning_eq_of_step rfl, warning_eq_of_step rfl]
  | shareBody how hb =>
    rw [warning_eq_of_step rfl, warning_eq_of_step rfl, (containers_eq hb xs ys).1,
      (containers_eq hb xs ys).2]

end Refactoring

/-! ### Outcomes -/

namespace Outcome

variable {config : AlignmentConfig} {v : Versions} {source target : String} {l : Link}

theorem additive_refactorings {c : List α → ClassPair} (hc : ClassPair.Slot c) :
    Additive fun xs => ∃ r ∈ (c xs).refactorings, r.Adds config v source target l := by
  cases hc with
  | refactorings c => exact .exists_mem _
  | refactoring c before after hr =>
    exact .exists_mem_splice before after (Refactoring.additive_adds hr)
  | _ =>
    dsimp only
    exact .const _

theorem classes_eq {c : List α → ClassPair} (hc : ClassPair.Slot c) (xs ys : List α) :
    (c xs).before = (c ys).before ∧ (c xs).after = (c ys).after := by
  cases hc <;> exact ⟨rfl, rfl⟩

/-- The relations of a class pair are additive in every list of it. -/
theorem additive_relates {c : List α → ClassPair} (hc : ClassPair.Slot c) :
    Additive fun xs => (ofClassPair config v (c xs)).Relates source target l := by
  refine .congr ?_ fun xs => relates_ofClassPair
  simp only [fun xs => (classes_eq hc xs []).1, fun xs => (classes_eq hc xs []).2]
  refine .exists_of_forall fun p => .and _ (.or ?_ (additive_refactorings hc))
  exact .and _ (.and _ (FilePair.additive_class hc))

theorem warnings_ofClassPair (c : ClassPair) :
    (ofClassPair config v c).warnings = match v.filePair c.before.sourceFile c.after.sourceFile with
      | .error w => [w]
      | .ok _ =>
        constantWarnings c ++ c.refactorings.filterMap fun r => (r.attempt config v).warning := by
  unfold ofClassPair
  cases v.filePair c.before.sourceFile c.after.sourceFile with
  | error w => rfl
  | ok p =>
    show constantWarnings c ++
      (c.refactorings.map (Refactoring.attempt config v)).filterMap Attempt.warning = _
    rw [List.filterMap_map]
    rfl

theorem constantWarnings_perm {c : List α → ClassPair} (hc : ClassPair.Slot c) {xs ys : List α}
    (h : xs.Perm ys) : (constantWarnings (c xs)).Perm (constantWarnings (c ys)) := by
  cases hc with
  | changedConstants c => exact (h.filter _).map _
  | changedConstant c before after name ha =>
    unfold constantWarnings
    simp only [List.filter_append, List.filter_cons, Option.isNone_some, Bool.false_eq_true, if_false]
    exact .refl _
  | _ => exact .refl _

theorem refactoringWarnings_perm {c : List α → ClassPair} (hc : ClassPair.Slot c) {xs ys : List α}
    (h : xs.Perm ys) :
    ((c xs).refactorings.filterMap fun r => (r.attempt config v).warning).Perm
      ((c ys).refactorings.filterMap fun r => (r.attempt config v).warning) := by
  cases hc with
  | refactorings c => exact h.filterMap _
  | refactoring c before after hr =>
    simp only [List.filterMap_append, List.filterMap_cons, Refactoring.warning_eq_of_slot hr xs ys]
    exact .refl _
  | _ => exact .refl _

/-- Reordering a list of a class pair reorders its warnings at most. -/
theorem warnings_perm {c : List α → ClassPair} (hc : ClassPair.Slot c) {xs ys : List α}
    (h : xs.Perm ys) :
    (ofClassPair config v (c xs)).warnings.Perm (ofClassPair config v (c ys)).warnings := by
  rw [warnings_ofClassPair, warnings_ofClassPair, (classes_eq hc xs ys).1, (classes_eq hc xs ys).2]
  cases v.filePair (c ys).before.sourceFile (c ys).after.sourceFile with
  | error w => exact .refl _
  | ok p => exact (constantWarnings_perm hc h).append (refactoringWarnings_perm hc h)

end Outcome

end Counterpart
