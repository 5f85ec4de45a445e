import Counterpart.Proofs.Outcome.Relation
import Counterpart.Proofs.Tree.Finished

/-!
# What a refactoring with a warning leaves behind

A refactoring that ends with a warning is meant to be skipped. Those that look at one file pair are:
they contribute nothing then. Those that take up several elements one after the other are not, for they
stop at the first element whose files lack a tree and keep what came before it. What stays is exactly
what the elements before that one add of themselves, and `warned_adds_reached` says when nothing stays.
-/

namespace Counterpart

/-! ### Steps -/

/-- Whether the files of two locations have trees. -/
def Versions.hasTrees (v : Versions) (x : Location × Location) : Bool :=
  (v.before.get? x.1.file).isSome && (v.after.get? x.2.file).isSome

theorem Versions.isOk_filePairOf (v : Versions) (x y : Location) :
    (v.filePairOf x y).isOk = v.hasTrees (x, y) := by
  unfold filePairOf filePair hasTrees
  cases v.before.get? x.file with
  | none => rfl
  | some t => cases v.after.get? y.file <;> rfl

theorem Versions.isOk_map_filePairOf {α : Type} (v : Versions) (x y : Location)
    (f : FilePair → α) : ((v.filePairOf x y).map f).isOk = v.hasTrees (x, y) := by
  rw [← v.isOk_filePairOf]
  cases v.filePairOf x y <;> rfl

namespace Attempt

/-- A single step either contributes or warns. -/
theorem contributions_of_warning {s : Except Warning Contribution}
    (h : (ofSteps [s]).warning.isSome = true) : (ofSteps [s]).contributions = [] := by
  cases s with
  | error w => rfl
  | ok c => cases h

variable {α : Type} {f : α → Except Warning Contribution} {ok : α → Bool}

/-- Steps up to the first that fails contribute all there is, and none of them fails. -/
theorem ofSteps_reached (hok : ∀ x, (f x).isOk = ok x) (xs : List α) :
    ofSteps ((xs.take (xs.takeWhile ok).length).map f) = ⟨(ofSteps (xs.map f)).contributions, none⟩ ∧
      ((ofSteps (xs.map f)).warning.isSome = true ↔ (xs.takeWhile ok).length < xs.length) := by
  induction xs with
  | nil => exact ⟨rfl, by simp [ofSteps]⟩
  | cons x xs ih =>
    have hx := hok x
    cases hfx : f x with
    | error w =>
      rw [hfx] at hx
      have hstop : (x :: xs).takeWhile ok = [] := by
        apply List.takeWhile_cons_of_neg
        rw [← hx]
        exact Bool.false_ne_true
      rw [hstop, List.map_cons, hfx]
      exact ⟨rfl, by simp [ofSteps]⟩
    | ok c =>
      rw [hfx] at hx
      have hgo : (x :: xs).takeWhile ok = x :: xs.takeWhile ok := List.takeWhile_cons_of_pos hx.symm
      obtain ⟨hreached, hwarns⟩ := ih
      rw [hgo, List.length_cons, List.take_succ_cons, List.map_cons, List.map_cons, hfx]
      refine ⟨?_, ?_⟩
      · rw [ofSteps, hreached]
        rfl
      · rw [List.length_cons, Nat.succ_lt_succ_iff, ← hwarns]
        rfl

end Attempt

/-! ### Refactorings of several elements -/

namespace Refactoring

variable {config : AlignmentConfig} {v : Versions}

/-- Whether a refactoring takes up several elements one after the other. -/
def isSequence : Refactoring → Bool
  | mergeVariables .. | splitVariable .. | splitConditional .. | mergeFragments .. => true
  | _ => false

/-- The places that a refactoring of several elements takes up, in order. -/
def places : Refactoring → List (Location × Location)
  | mergeVariables old new _ => old.map fun x => (x.location, new.location)
  | splitVariable old new _ => new.map fun y => (old.location, y.location)
  | splitConditional old new _ => new.map fun y => (old.location, y.location)
  | mergeFragments _ old new _ => old.map fun x => (x.location, new.location)
  | _ => []

/-- The refactoring with its first `n` elements only. -/
def firstElements (n : Nat) : Refactoring → Refactoring
  | mergeVariables old new classes => mergeVariables (old.take n) new classes
  | splitVariable old new classes => splitVariable old (new.take n) classes
  | splitConditional old new classes => splitConditional old (new.take n) classes
  | mergeFragments what old new classes => mergeFragments what (old.take n) new classes
  | r => r

/-- The number of elements before the first whose files lack a tree. -/
def reach (v : Versions) (r : Refactoring) : Nat :=
  (r.places.takeWhile v.hasTrees).length

/-- The elements that are taken up before the first whose files lack a tree. -/
def reached (v : Versions) (r : Refactoring) : Refactoring :=
  r.firstElements (r.reach v)

def warns (config : AlignmentConfig) (v : Versions) (r : Refactoring) : Bool :=
  (r.attempt config v).warning.isSome

/-- Nothing is written, and nothing is put off. -/
def AddsNothing (config : AlignmentConfig) (v : Versions) (r : Refactoring) : Prop :=
  ∀ c ∈ (r.attempt config v).contributions, c.findings = {}

/-- A refactoring that looks at one file pair contributes nothing if it warns. -/
theorem contributions_of_warns {r : Refactoring} (h : r.warns config v = true)
    (hseq : r.isSequence = false) : (r.attempt config v).contributions = [] := by
  cases r with
  | relocateOperation how old new body => exact Attempt.contributions_of_warning h
  | relocateAttribute how old new => exact Attempt.contributions_of_warning h
  | shareBody how body => exact Attempt.contributions_of_warning h
  | renameAttribute old new => exact Attempt.contributions_of_warning h
  | mergeVariables old new classes => cases hseq
  | splitVariable old new classes => cases hseq
  | splitConditional old new classes => cases hseq
  | mergeFragments what old new classes => cases hseq
  | replaceLoop side old new classes => exact Attempt.contributions_of_warning h
  | extractVariable new classes => rfl

theorem ofSteps_places {α : Type} {f : α → Except Warning Contribution}
    (g : α → Location × Location) (hok : ∀ x, (f x).isOk = v.hasTrees (g x)) (xs : List α) :
    Attempt.ofSteps ((xs.take ((xs.map g).takeWhile v.hasTrees).length).map f) =
        ⟨(Attempt.ofSteps (xs.map f)).contributions, none⟩ ∧
      ((Attempt.ofSteps (xs.map f)).warning.isSome = true ↔
        ((xs.map g).takeWhile v.hasTrees).length < (xs.map g).length) := by
  rw [List.takeWhile_map, List.length_map, List.length_map]
  exact Attempt.ofSteps_reached hok xs

/-- A refactoring of several elements does what it does with those it reaches, and warns exactly if
these are not all. -/
theorem attempt_reached {r : Refactoring} (hseq : r.isSequence = true) :
    (r.reached v).attempt config v = ⟨(r.attempt config v).contributions, none⟩ ∧
      (r.warns config v = true ↔ r.reach v < r.places.length) := by
  have hlooksUp := @Versions.isOk_map_filePairOf Contribution v
  cases r with
  | mergeVariables old new classes =>
    exact ofSteps_places (fun x => (x.location, new.location)) (fun x => hlooksUp ..) old
  | splitVariable old new classes =>
    exact ofSteps_places (fun y => (old.location, y.location)) (fun y => hlooksUp ..) new
  | splitConditional old new classes =>
    exact ofSteps_places (fun y => (old.location, y.location)) (fun y => hlooksUp ..) new
  | mergeFragments what old new classes =>
    exact ofSteps_places (fun x => (x.location, new.location)) (fun x => hlooksUp ..) old
  | relocateOperation how old new body => cases hseq
  | relocateAttribute how old new => cases hseq
  | shareBody how body => cases hseq
  | renameAttribute old new => cases hseq
  | replaceLoop side old new classes => cases hseq
  | extractVariable new classes => cases hseq

/-- What a refactoring with a warning adds is added by the elements it reaches. -/
theorem adds_reached {r : Refactoring} {source target : String} {l : Link}
    (h : r.warns config v = true) (hadd : r.Adds config v source target l) :
    r.isSequence = true ∧ (r.reached v).Adds config v source target l := by
  obtain ⟨c, hc, hl⟩ := hadd
  cases hseq : r.isSequence with
  | false =>
    rw [contributions_of_warns h hseq] at hc
    cases hc
  | true =>
    refine ⟨rfl, c, ?_, hl⟩
    rw [(attempt_reached hseq).1]
    exact hc

theorem addsNothing_iff_reached {r : Refactoring} (h : r.warns config v = true) :
    r.AddsNothing config v ↔ (r.isSequence = true → (r.reached v).AddsNothing config v) := by
  cases hseq : r.isSequence with
  | false =>
    refine ⟨fun _ hfalse => absurd hfalse Bool.false_ne_true, fun _ c hc => ?_⟩
    rw [contributions_of_warns h hseq] at hc
    cases hc
  | true =>
    unfold AddsNothing
    rw [(attempt_reached hseq).1]
    exact ⟨fun hnothing _ => hnothing, fun hnothing => hnothing rfl⟩

end Refactoring

/-! ### Outcomes -/

namespace Outcome

variable {config : AlignmentConfig} {v : Versions}

theorem foldl_record_filter (xs : List (FilePair × List Link)) (ds : List FileDiff) :
    (xs.filter fun x => !x.2.isEmpty).foldl FileDiff.record ds = xs.foldl FileDiff.record ds := by
  rw [List.foldl_filter]
  congr 1
  funext ds x
  unfold FileDiff.record
  cases x.2.isEmpty <;> rfl

theorem flatMap_filter_of_nil {α β : Type} {keep : α → Bool} {f : α → List β} {xs : List α}
    (h : ∀ x ∈ xs, keep x = false → f x = []) : (xs.filter keep).flatMap f = xs.flatMap f := by
  induction xs with
  | nil => rfl
  | cons x xs ih =>
    have hrest := ih fun y hy => h y (List.mem_cons_of_mem x hy)
    cases hx : keep x with
    | true => rw [List.filter_cons_of_pos hx, List.flatMap_cons, List.flatMap_cons, hrest]
    | false =>
      rw [List.filter_cons_of_neg (by simp [hx]), List.flatMap_cons, h x List.mem_cons_self hx, hrest,
        List.nil_append]

/-- Refactorings that add nothing may be left out. -/
theorem diffs_filter {found : List Contribution} {ws : List Warning} {rs : List Refactoring}
    {keep : Refactoring → Bool} (h : ∀ r ∈ rs, keep r = false → r.AddsNothing config v) :
    (withRefactorings config v found ws (rs.filter keep)).diffs =
      (withRefactorings config v found ws rs).diffs := by
  unfold withRefactorings collect
  dsimp only
  -- Entries without links leave the differences as they are, so both sides are compared without them.
  rw [← foldl_record_filter, ← foldl_record_filter (immediate (found ++ _) ++ _)]
  congr 1
  simp only [immediate, postponed, List.map_append, List.flatMap_append, List.filter_append,
    List.flatMap_map, List.map_flatMap, List.filter_flatMap, List.flatMap_assoc]
  congr 2
  · apply flatMap_filter_of_nil
    intro r hr hkeep
    rw [List.filter_eq_nil_iff]
    intro x hx
    obtain ⟨c, hc, rfl⟩ := List.mem_map.1 hx
    simp [h r hr hkeep c hc]
  · apply flatMap_filter_of_nil
    intro r hr hkeep
    apply List.flatMap_eq_nil_iff.2
    intro c hc
    simp [h r hr hkeep c hc]

/-- Leaving out the refactorings with warnings changes nothing exactly if what they reach is added
by others. -/
theorem relates_filter_warns_iff {rs : List Refactoring} :
    (∀ source target l, (ofRefactorings config v rs).Relates source target l ↔
      (ofRefactorings config v (rs.filter fun r => !r.warns config v)).Relates source target l) ↔
    ∀ r ∈ rs, r.warns config v = true → r.isSequence = true →
      ∀ source target l, (r.reached v).Adds config v source target l →
        ∃ q ∈ rs, q.warns config v = false ∧ q.Adds config v source target l := by
  simp only [relates_ofRefactorings, List.mem_filter, Bool.not_eq_true', and_assoc]
  constructor
  · intro h r hr _ hseq source target l hadd
    refine (h source target l).1 ⟨r, hr, ?_⟩
    unfold Refactoring.Adds at hadd
    rw [(Refactoring.attempt_reached hseq).1] at hadd
    exact hadd
  · intro h source target l
    constructor
    · rintro ⟨r, hr, hadd⟩
      cases hwarns : r.warns config v with
      | false => exact ⟨r, hr, hwarns, hadd⟩
      | true =>
        obtain ⟨hseq, hreached⟩ := Refactoring.adds_reached hwarns hadd
        exact h r hr hwarns hseq source target l hreached
    · rintro ⟨r, hr, -, hadd⟩
      exact ⟨r, hr, hadd⟩

/-- When a refactoring with a warning leaves nothing behind. One that looks at a single file pair
always does. One of several elements warns if it does not reach all of them, and has the effect of
those that it reaches, so it adds nothing exactly if they do. Leaving out all refactorings with
warnings keeps every difference in that case, and keeps all relations exactly if whatever is added by
elements reached is added by others too. -/
theorem warned_adds_reached (config : AlignmentConfig) (v : Versions) :
    (∀ r : Refactoring, r.warns config v = true → r.isSequence = false →
      (r.attempt config v).contributions = []) ∧
    (∀ r : Refactoring, r.isSequence = true →
      (r.reached v).attempt config v = ⟨(r.attempt config v).contributions, none⟩ ∧
      (r.warns config v = true ↔ r.reach v < r.places.length)) ∧
    (∀ r : Refactoring, r.warns config v = true →
      (r.AddsNothing config v ↔ (r.isSequence = true → (r.reached v).AddsNothing config v))) ∧
    (∀ (found : List Contribution) (ws : List Warning) (rs : List Refactoring),
      (∀ r ∈ rs, r.warns config v = true → r.isSequence = true →
        (r.reached v).AddsNothing config v) →
      (withRefactorings config v found ws (rs.filter fun r => !r.warns config v)).diffs =
        (withRefactorings config v found ws rs).diffs) ∧
    (∀ rs : List Refactoring,
      (∀ source target l, (ofRefactorings config v rs).Relates source target l ↔
        (ofRefactorings config v (rs.filter fun r => !r.warns config v)).Relates source target l) ↔
      ∀ r ∈ rs, r.warns config v = true → r.isSequence = true →
        ∀ source target l, (r.reached v).Adds config v source target l →
          ∃ q ∈ rs, q.warns config v = false ∧ q.Adds config v source target l) := by
  refine ⟨fun r => Refactoring.contributions_of_warns, fun r => Refactoring.attempt_reached,
    fun r => Refactoring.addsNothing_iff_reached, ?_, fun rs => relates_filter_warns_iff⟩
  intro found ws rs h
  apply diffs_filter
  intro r hr hkeep
  have hwarns : r.warns config v = true := by simpa using hkeep
  exact (Refactoring.addsNothing_iff_reached hwarns).2 (h r hr hwarns)

/-- One file in which a name was changed. -/
def oneRenamed : Versions where
  before := .ofList [("A", .fileOf "x")]
  after := .ofList [("A", .fileOf "y")]

/-- Variables of the given files that became one in file `A`. -/
def mergedFrom (files : List String) : Refactoring :=
  .mergeVariables (files.map fun file => { location := { file, span := ⟨0, 9⟩ } })
    { location := { file := "A", span := ⟨0, 9⟩ } } {}

/-- A variable of a file without a tree ends the merge. The one before it stays linked, and only if
there is none, nothing is left behind. -/
theorem mergedFrom_not_skipped :
    (mergedFrom ["A", "B"]).warns {} oneRenamed = true ∧
    (mergedFrom ["A", "B"]).reach oneRenamed < (mergedFrom ["A", "B"]).places.length ∧
    (ofRefactorings {} oneRenamed [mergedFrom ["A", "B"]]).Relates "A" "A" (1, 1) ∧
    (¬ ∀ source target l,
      (ofRefactorings {} oneRenamed [mergedFrom ["A", "B"]]).Relates source target l ↔
        (ofRefactorings {} oneRenamed ([mergedFrom ["A", "B"]].filter fun r =>
          !r.warns {} oneRenamed)).Relates source target l) ∧
    (mergedFrom ["B", "A"]).warns {} oneRenamed = true ∧
    (mergedFrom ["B", "A"]).AddsNothing {} oneRenamed := by
  obtain ⟨-, hsequence, hnothing, -, hrelates⟩ := warned_adds_reached {} oneRenamed
  have hwarns : (mergedFrom ["A", "B"]).warns {} oneRenamed = true := by decide +kernel
  have hlinked : (ofRefactorings {} oneRenamed [mergedFrom ["A", "B"]]).Relates "A" "A" (1, 1) := by
    decide +kernel
  have hfirst : (mergedFrom ["B", "A"]).warns {} oneRenamed = true := by decide +kernel
  refine ⟨hwarns, (hsequence _ rfl).2.1 hwarns, hlinked, ?_, hfirst, (hnothing _ hfirst).2 ?_⟩
  · rw [hrelates]
    intro h
    obtain ⟨hseq, hadd⟩ := Refactoring.adds_reached hwarns
      ((relates_ofRefactorings.1 hlinked).elim fun r hr => List.mem_singleton.1 hr.1 ▸ hr.2)
    obtain ⟨q, hq, hquiet, -⟩ := h _ List.mem_cons_self hwarns hseq "A" "A" (1, 1) hadd
    obtain rfl := List.mem_singleton.1 hq
    cases hwarns.symm.trans hquiet
  · intro _ c hc
    cases hc

end Outcome

end Counterpart
