import Counterpart.Proofs.FileDiff.Order

/-!
# Expressions come last

A reconciliation seen as a run. What it does, action by action, is listed by `ClassPair.actions` and
`Refactoring.actions`: it finds links, or it comes to a pair of fragments. A `Run` carries the differences so
far and a queue: two fragments one of which is an expression are put at its end, and nothing else is done
about them than linking them if they are of one kind. When all actions are done, the queue is drained from
its front.

`expressions_aligned_last` says that this is what reconciliations give. The queue holds those of the fragments
come to that are put off (`Visit.isPutOff`), and a store ends up with the links of all actions, followed by
the new ones among those that the queue gives.
-/

namespace Counterpart

/-- A pair of fragments that a run comes to, in the files in which it looks for them. -/
abbrev Visit := FilePair × FragmentPair

namespace Visit

/-- The nodes that the fragments denote. -/
def nodes? (e : Visit) : Option Link :=
  e.1.resolve? e.2.before.location e.2.after.location

/-- Whether two simple fragments are found, one of which is an expression. -/
def isPutOff (e : Visit) : Bool :=
  decide (e.2.kind = .simple) && e.2.involvesExpression && e.nodes?.isSome

/-- The links between two fragments that are aligned as wholes. -/
def links (config : AlignmentConfig) (e : Visit) : List Link :=
  e.nodes?.toList.flatMap fun l => Alignment.simpleLinks config e.1.source e.1.target false l.1 l.2

end Visit

/-! ### Runs -/

/-- What a run does at one moment: it finds links between two files, or it comes to two fragments. -/
inductive Action where
  | find (files : FilePair) (links : List Link)
  | visit (e : Visit)

/-- The differences so far, and the fragments that were put off. -/
structure Run where
  diffs : List FileDiff := []
  queue : List Visit := []

namespace Run

variable (config : AlignmentConfig)

/-- Come to two fragments. -/
def visit (r : Run) (e : Visit) : Run :=
  match e.nodes? with
  | none => r
  | some l =>
    match e.2.kind with
    | .composite => { r with diffs := FileDiff.record r.diffs (e.1, e.1.compositeLinks config l) }
    | .simple =>
      let diffs := FileDiff.record r.diffs (e.1, if e.1.isSameKind l then [l] else [])
      if e.2.involvesExpression then ⟨diffs, r.queue ++ [e]⟩
      else ⟨FileDiff.record diffs
        (e.1, Alignment.simpleLinks config e.1.source e.1.target false l.1 l.2), r.queue⟩

def step (r : Run) : Action → Run
  | .find p ls => { r with diffs := FileDiff.record r.diffs (p, ls) }
  | .visit e => r.visit config e

/-- Do one action after the other. -/
def perform (r : Run) (as : List Action) : Run :=
  as.foldl (step config) r

/-- Align the fragments of the queue, the first one first. -/
def drain (r : Run) : List FileDiff :=
  r.queue.foldl (fun ds e =>
    match e.nodes? with
    | none => ds
    | some l => FileDiff.record ds
        (e.1, Alignment.simpleLinks config e.1.source e.1.target false l.1 l.2)) r.diffs

variable {config}

/-- Coming to two fragments records what is found at once, and puts at most themselves in the queue. -/
theorem visit_eq (r : Run) (e : Visit) :
    r.visit config e = ⟨FileDiff.record r.diffs (e.1, (e.1.fragmentFindings config e.2).links),
      r.queue ++ [e].filter Visit.isPutOff⟩ := by
  have hoff : e.isPutOff = (decide (e.2.kind = .simple) && e.2.involvesExpression && e.nodes?.isSome) := rfl
  have hres : e.1.resolve? e.2.before.location e.2.after.location = e.nodes? := rfl
  rw [visit, FilePair.fragmentFindings, hres, List.filter_singleton, hoff]
  cases e.nodes? with
  | none =>
    rw [Option.isSome_none, Bool.and_false]
    exact congrArg (Run.mk r.diffs) (List.append_nil r.queue).symm
  | some l =>
    cases e.2.kind with
    | composite => exact congrArg (Run.mk _) (List.append_nil r.queue).symm
    | simple =>
      cases e.2.involvesExpression with
      | true => rfl
      | false =>
        show Run.mk _ r.queue = Run.mk (FileDiff.record r.diffs (e.1, _ ++ _)) (r.queue ++ [])
        rw [FileDiff.record_append, List.append_nil]

theorem drain_eq (r : Run) :
    r.drain config = (r.queue.map fun e => (e.1, e.links config)).foldl FileDiff.record r.diffs := by
  rw [drain, List.foldl_map]
  congr 1
  funext ds e
  unfold Visit.links
  cases e.nodes? with
  | none => rfl
  | some l => simp

end Run

/-! ### What a reconciliation does -/

namespace FilePair

variable (config : AlignmentConfig) (p : FilePair)

mutual

/-- The insides of two bodies: anonymous classes first, then statements and expressions. -/
def bodyActions : BodyPair → List Action
  | { fragments, anonymousClasses, .. } =>
    anonymousActions anonymousClasses ++ fragments.map fun f => .visit (p, f)

/-- Anonymous classes, each with its fields first. -/
def anonymousActions : List AnonymousClassPair → List Action
  | [] => []
  | { attributes, members } :: rest =>
    attributes.map (fun f => .find p (fieldLinks config p f.1 f.2)) ++ memberActions members ++
      anonymousActions rest

/-- Operations and initializer blocks, each with its declaration first. -/
def memberActions : List BodyPair → List Action
  | [] => []
  | b :: rest => .find p (p.declarationLinks b) :: bodyActions b ++ memberActions rest

end

/-- Two versions of a class, refactorings apart: their files, their enum constants, the bodies of changed
constants, their declarations and their members. -/
def classActions (c : ClassPair) : List Action :=
  [.find p [(Tree.root, Tree.root)], .find p p.packageLinks] ++
    c.imports.map (fun name => .find p (p.importLinks name)) ++
    c.enumConstants.map (fun e => .find p (enumConstantLinks config p e.1 e.2)) ++
    memberActions config p (c.changedConstants.flatMap fun e =>
      e.classBody.toList.flatMap AnonymousClassPair.members) ++
    [.find p (classLinks config p c)] ++ memberActions config p c.bodies

end FilePair

variable (config : AlignmentConfig) (v : Versions)

/-- A refactoring: two bodies are gone through, and for all others links are found. -/
def Refactoring.actions (r : Refactoring) : List Action :=
  match r with
  | relocateOperation _ old new body =>
    (v.filePairOf old.location new.location).toOption.toList.flatMap fun p =>
      .find p (p.declarationLinks body) :: p.bodyActions config body
  | shareBody _ body =>
    (v.filePairOf body.before.location body.after.location).toOption.toList.flatMap fun p =>
      p.bodyActions config body
  | r => (r.attempt config v).contributions.map fun c => .find c.files c.findings.links

/-- A class pair: the classes, then the refactorings, if both trees are there. -/
def ClassPair.actions (c : ClassPair) : List Action :=
  (v.filePair c.before.sourceFile c.after.sourceFile).toOption.toList.flatMap fun p =>
    p.classActions config c ++ c.refactorings.flatMap (Refactoring.actions config v)

/-! ### The fragments come to -/

mutual

/-- The fragments of two bodies, those within anonymous classes first. -/
def BodyPair.visited : BodyPair → List FragmentPair
  | { fragments, anonymousClasses, .. } => visitedInAnonymous anonymousClasses ++ fragments

/-- The fragments within anonymous classes. -/
def visitedInAnonymous : List AnonymousClassPair → List FragmentPair
  | [] => []
  | { members, .. } :: rest => visitedInMembers members ++ visitedInAnonymous rest

/-- The fragments of several bodies. -/
def visitedInMembers : List BodyPair → List FragmentPair
  | [] => []
  | b :: rest => b.visited ++ visitedInMembers rest

end

/-- The fragments that a refactoring comes to: those of the body that it is about. -/
def Refactoring.visits : Refactoring → List Visit
  | relocateOperation _ old new body =>
    (v.filePairOf old.location new.location).toOption.toList.flatMap fun p =>
      body.visited.map fun f => (p, f)
  | shareBody _ body =>
    (v.filePairOf body.before.location body.after.location).toOption.toList.flatMap fun p =>
      body.visited.map fun f => (p, f)
  | _ => []

/-- The fragments that a class pair comes to: those of changed enum constants, of the members and of the
refactorings. -/
def ClassPair.visits (c : ClassPair) : List Visit :=
  (v.filePair c.before.sourceFile c.after.sourceFile).toOption.toList.flatMap fun p =>
    (visitedInMembers (c.changedConstants.flatMap fun e =>
        e.classBody.toList.flatMap AnonymousClassPair.members) ++
      visitedInMembers c.bodies).map (fun f => (p, f)) ++ c.refactorings.flatMap (Refactoring.visits v)

/-! ### Actions and contributions -/

/-- The actions come to the contributions, and to the fragments `vs` on their way. -/
structure Realises (as : List Action) (cs : List Contribution) (vs : List Visit) : Prop where
  perform_eq : ∀ r : Run, r.perform config as =
    ⟨(Outcome.immediate cs).foldl FileDiff.record r.diffs, r.queue ++ vs.filter Visit.isPutOff⟩
  postponed_eq : Outcome.postponed config cs =
    (vs.filter Visit.isPutOff).map fun e => (e.1, e.links config)

variable {config v}

namespace Realises

variable {as bs : List Action} {cs ds : List Contribution} {vs ws : List Visit} {p : FilePair}
  {f g : Findings}

theorem nil : Realises config [] [] [] where
  perform_eq r := congrArg (Run.mk r.diffs) (List.append_nil r.queue).symm
  postponed_eq := rfl

/-- One after the other. -/
theorem append (h : Realises config as cs vs) (h' : Realises config bs ds ws) :
    Realises config (as ++ bs) (cs ++ ds) (vs ++ ws) where
  perform_eq r := by
    have himmediate : Outcome.immediate (cs ++ ds) = Outcome.immediate cs ++ Outcome.immediate ds :=
      List.map_append
    rw [Run.perform, List.foldl_append]
    show Run.perform config (Run.perform config r as) bs = _
    rw [h.perform_eq, h'.perform_eq, himmediate, List.foldl_append, List.filter_append,
      ← List.append_assoc]
  postponed_eq := by
    rw [Outcome.postponed, List.flatMap_append, List.filter_append, List.map_append]
    exact congr (congrArg _ h.postponed_eq) h'.postponed_eq

/-- One after the other in the same files. -/
theorem join (h : Realises config as [⟨p, f⟩] vs) (h' : Realises config bs [⟨p, g⟩] ws) :
    Realises config (as ++ bs) [⟨p, f ++ g⟩] (vs ++ ws) where
  perform_eq r := by
    rw [(h.append h').perform_eq]
    exact congrArg (Run.mk · _) (FileDiff.record_append r.diffs p f.links g.links).symm
  postponed_eq := by
    rw [← (h.append h').postponed_eq]
    simp [Outcome.postponed]

theorem nothing (p : FilePair) : Realises config [] [⟨p, {}⟩] [] where
  perform_eq r := congrArg (Run.mk r.diffs) (List.append_nil r.queue).symm
  postponed_eq := rfl

theorem find (p : FilePair) (ls : List Link) : Realises config [.find p ls] [⟨p, ⟨ls, []⟩⟩] [] where
  perform_eq r := congrArg (Run.mk _) (List.append_nil r.queue).symm
  postponed_eq := rfl

theorem visit (p : FilePair) (x : FragmentPair) :
    Realises config [.visit (p, x)] [⟨p, p.fragmentFindings config x⟩] [(p, x)] where
  perform_eq r := r.visit_eq (p, x)
  postponed_eq := by
    have hoff : Visit.isPutOff (p, x) =
      (decide (x.kind = .simple) && x.involvesExpression && (Visit.nodes? (p, x)).isSome) := rfl
    have hres : p.resolve? x.before.location x.after.location = Visit.nodes? (p, x) := rfl
    rw [Outcome.postponed, List.flatMap_singleton, FilePair.fragmentFindings, hres, List.filter_singleton,
      hoff]
    cases hnodes : Visit.nodes? (p, x) with
    | none =>
      rw [Option.isSome_none, Bool.and_false]
      rfl
    | some l =>
      have hlinks : Visit.links config (p, x) =
          Alignment.simpleLinks config p.source p.target false l.1 l.2 := by
        rw [Visit.links, hnodes]
        exact List.flatMap_singleton ..
      cases x.kind with
      | composite => rfl
      | simple =>
        cases x.involvesExpression with
        | false => rfl
        | true => exact congrArg (fun ls => [(p, ls)]) hlinks.symm

/-- Links that are found piece by piece. -/
theorem finds {α : Type} (p : FilePair) (links : α → List Link) (xs : List α) :
    Realises config (xs.map fun x => .find p (links x)) [⟨p, ⟨xs.flatMap links, []⟩⟩] [] := by
  induction xs with
  | nil => exact nothing p
  | cons x xs ih => exact (find p (links x)).join ih

theorem visits (p : FilePair) (xs : List FragmentPair) :
    Realises config (xs.map fun x => .visit (p, x))
      [⟨p, .concat (xs.map (p.fragmentFindings config))⟩] (xs.map fun x => (p, x)) := by
  induction xs with
  | nil => exact nothing p
  | cons x xs ih => exact (visit p x).join ih

mutual

theorem body (p : FilePair) : ∀ b : BodyPair,
    Realises config (p.bodyActions config b) [⟨p, p.bodyFindings config b⟩] (b.visited.map fun x => (p, x))
  | ⟨_, _, _, _, fragments, anonymousClasses⟩ => by
    rw [FilePair.bodyActions, FilePair.bodyFindings, BodyPair.visited, List.map_append]
    exact (anonymous p anonymousClasses).join (visits p fragments)

theorem anonymous (p : FilePair) : ∀ as : List AnonymousClassPair,
    Realises config (p.anonymousActions config as) [⟨p, p.anonymousFindings config as⟩]
      ((visitedInAnonymous as).map fun x => (p, x))
  | [] => by
    rw [FilePair.anonymousActions, FilePair.anonymousFindings, visitedInAnonymous]
    exact nothing p
  | ⟨attributes, ms⟩ :: rest => by
    rw [FilePair.anonymousActions, FilePair.anonymousFindings, visitedInAnonymous, List.map_append]
    exact ((finds p _ attributes).join (members p ms)).join (anonymous p rest)

theorem members (p : FilePair) : ∀ bs : List BodyPair,
    Realises config (p.memberActions config bs) [⟨p, p.memberFindings config bs⟩]
      ((visitedInMembers bs).map fun x => (p, x))
  | [] => by
    rw [FilePair.memberActions, FilePair.memberFindings, visitedInMembers]
    exact nothing p
  | b :: rest => by
    rw [FilePair.memberActions, FilePair.memberFindings, visitedInMembers, List.map_append]
    exact ((find p _).join (body p b)).join (members p rest)

end

/-- Two versions of a class, refactorings apart. -/
theorem classes (p : FilePair) (c : ClassPair) :
    Realises config (p.classActions config c) [⟨p, p.classFindings config c⟩]
      ((visitedInMembers (c.changedConstants.flatMap fun e =>
          e.classBody.toList.flatMap AnonymousClassPair.members) ++
        visitedInMembers c.bodies).map fun x => (p, x)) := by
  have hframe : Realises config
      ([.find p [(Tree.root, Tree.root)], .find p p.packageLinks] ++
        c.imports.map (fun name => .find p (p.importLinks name)) ++
        c.enumConstants.map (fun e => .find p (p.enumConstantLinks config e.1 e.2)))
      [⟨p, ⟨(Tree.root, Tree.root) :: (p.packageLinks ++ c.imports.flatMap p.importLinks ++
        c.enumConstants.flatMap fun e => p.enumConstantLinks config e.1 e.2), []⟩⟩] [] :=
    (((find p [(Tree.root, Tree.root)]).join (find p p.packageLinks)).join
      (finds p p.importLinks c.imports)).join (finds p _ c.enumConstants)
  have hall := ((hframe.join (members p (c.changedConstants.flatMap fun e =>
    e.classBody.toList.flatMap AnonymousClassPair.members))).join (find p (p.classLinks config c))).join
      (members p c.bodies)
  rw [List.nil_append, List.append_nil, ← List.map_append] at hall
  exact hall

/-- Contributions with nothing put off. -/
theorem contributions {cs : List Contribution} (h : ∀ c ∈ cs, c.findings.deferred = []) :
    Realises config (cs.map fun c => .find c.files c.findings.links) cs [] := by
  induction cs with
  | nil => exact nil
  | cons c cs ih =>
    obtain ⟨p, links, deferred⟩ := c
    obtain rfl : deferred = [] := h ⟨p, links, deferred⟩ List.mem_cons_self
    exact (find p links).append (ih fun d hd => h d (List.mem_cons_of_mem _ hd))

/-- A step that finds links and puts nothing off. -/
theorem deferred_of_step {g : FilePair → List Link} {x y : Location} {c : Contribution}
    (h : (v.filePairOf x y).map (fun p => (⟨p, g p, []⟩ : Contribution)) = .ok c) :
    c.findings.deferred = [] := by
  obtain ⟨p, -, rfl⟩ := Refactoring.step_eq_ok h
  rfl

theorem refactoring (r : Refactoring) :
    Realises config (r.actions config v) (r.attempt config v).contributions (r.visits v) := by
  cases r with
  | relocateOperation how old new b =>
    rw [Refactoring.actions, Refactoring.visits, Refactoring.attempt, Refactoring.steps]
    cases v.filePairOf old.location new.location with
    | error w => exact nil
    | ok p =>
      show Realises config ([p].flatMap _) [⟨p, p.operationFindings config b⟩] ([p].flatMap _)
      rw [List.flatMap_singleton, List.flatMap_singleton]
      exact (find p (p.declarationLinks b)).join (body p b)
  | shareBody how b =>
    rw [Refactoring.actions, Refactoring.visits, Refactoring.attempt, Refactoring.steps]
    cases v.filePairOf b.before.location b.after.location with
    | error w => exact nil
    | ok p =>
      show Realises config ([p].flatMap _) [⟨p, p.bodyFindings config b⟩] ([p].flatMap _)
      rw [List.flatMap_singleton, List.flatMap_singleton]
      exact body p b
  | relocateAttribute | renameAttribute =>
    refine contributions fun c hc => ?_
    exact deferred_of_step (List.mem_singleton.1 (Attempt.mem_steps_of_mem hc)).symm
  | mergeVariables | splitVariable | splitConditional | mergeFragments =>
    refine contributions fun c hc => ?_
    obtain ⟨x, -, hstep⟩ := List.mem_map.1 (Attempt.mem_steps_of_mem hc)
    exact deferred_of_step hstep
  | replaceLoop =>
    refine contributions fun c hc => ?_
    obtain ⟨loop, pipeline, -, -, hstep⟩ :=
      Refactoring.loopStep_eq_ok (List.mem_singleton.1 (Attempt.mem_steps_of_mem hc)).symm
    exact deferred_of_step hstep
  | extractVariable => exact nil

theorem refactorings (rs : List Refactoring) :
    Realises config (rs.flatMap (Refactoring.actions config v))
      ((rs.map (Refactoring.attempt config v)).flatMap Attempt.contributions)
      (rs.flatMap (Refactoring.visits v)) := by
  induction rs with
  | nil => exact nil
  | cons r rs ih => exact (refactoring r).append ih

end Realises

/-! ### Outcomes -/

namespace Outcome

/-- The differences `ds` are those of a run that does the actions `as`, comes to the fragments `vs` and aligns
the expressions among them last. -/
structure AlignsExpressionsLast (config : AlignmentConfig) (ds : List FileDiff) (as : List Action)
    (vs : List Visit) : Prop where
  diffs_eq : ds = (Run.perform config {} as).drain config
  queue_eq : (Run.perform config {} as).queue = vs.filter Visit.isPutOff
  pairs_eq : ∀ source target,
    let first := (FileDiff.storeAt (Run.perform config {} as).diffs source target).pairs
    let queued := (vs.filter Visit.isPutOff).filter fun e =>
      decide ((e.1.sourcePath, e.1.targetPath) = (source, target))
    (FileDiff.storeAt ds source target).pairs =
      first ++ ((queued.flatMap (Visit.links config)).filter fun l => decide (l ∉ first)).eraseDups

theorem foundAt_map (config : AlignmentConfig) (vs : List Visit) (source target : String) :
    FileDiff.foundAt (vs.map fun e => (e.1, e.links config)) source target =
      (vs.filter fun e => decide ((e.1.sourcePath, e.1.targetPath) = (source, target))).flatMap
        (Visit.links config) := by
  rw [FileDiff.foundAt, List.filter_map, List.flatMap_map]
  rfl

theorem alignsExpressionsLast_collect {as : List Action} {cs : List Contribution} {vs : List Visit}
    (h : Realises config as cs vs) : AlignsExpressionsLast config (collect config cs) as vs := by
  have hrun : Run.perform config {} as =
      ⟨(immediate cs).foldl FileDiff.record [], vs.filter Visit.isPutOff⟩ := h.perform_eq {}
  have hdrain : collect config cs = (Run.perform config {} as).drain config := by
    rw [collect, List.foldl_append, h.postponed_eq, Run.drain_eq, hrun]
  refine ⟨hdrain, by rw [hrun], fun source target => ?_⟩
  have hwell : (FileDiff.storeAt (Run.perform config {} as).diffs source target).WellFormed := by
    rw [hrun, FileDiff.storeAt_foldl_record]
    exact LinkSet.wellFormed_ofList _
  dsimp only
  rw [hdrain, Run.drain_eq, FileDiff.storeAt_foldl_record, foundAt_map, hwell.pairs_insertMany_eq, hrun]

/-- In every reconciliation the expressions are aligned after all else: the queue holds the pairs of fragments
that are put off, in the order in which the run comes to them, and every store holds first what all actions
put there, then what the alignment of the queue adds. -/
theorem expressions_aligned_last (config : AlignmentConfig) (v : Versions) :
    (∀ c : ClassPair,
      AlignsExpressionsLast config (ofClassPair config v c).diffs (c.actions config v) (c.visits v)) ∧
    ∀ rs : List Refactoring,
      AlignsExpressionsLast config (ofRefactorings config v rs).diffs
        (rs.flatMap (Refactoring.actions config v)) (rs.flatMap (Refactoring.visits v)) := by
  refine ⟨fun c => ?_, fun rs => alignsExpressionsLast_collect (.refactorings rs)⟩
  unfold ofClassPair ClassPair.actions ClassPair.visits
  cases v.filePair c.before.sourceFile c.after.sourceFile with
  | error w => exact alignsExpressionsLast_collect .nil
  | ok p =>
    show AlignsExpressionsLast config (collect config ([_] ++ _)) ([p].flatMap _) ([p].flatMap _)
    rw [List.flatMap_singleton, List.flatMap_singleton]
    exact alignsExpressionsLast_collect ((Realises.classes p c).append (.refactorings c.refactorings))

end Outcome

end Counterpart
