import Counterpart.Proofs.Alignment.Growth
import Counterpart.Proofs.Tree.Resolution
import Mathlib.Data.List.ProdSigma
import Mathlib.Logic.Function.Iterate

/-!
# Every candidate comes up once

The search for identical parts keeps a stack of candidates. A turn takes the candidate on top, and may put
pairs of its children in its place (`Search.turn`), so the stack may grow and its length says nothing about
the end. But a pair of children comes from the pair of their parents and from no other, and that pair has
been looked at by then. So no candidate is put on the stack twice (`Search.IsSound.nodup`), and since all of
them join nodes of the two subtrees, the number of turns is bounded by the number of such pairs. Candidates
and the pairs that come from them are as deep on one side as on the other (`EquallyDeep`).

The main statement is `topDown_ends`. It also covers the loop inside a turn that pairs two subtrees
(`pairTop`), and shows that the bound in `topDown` never cuts a search short.
-/

namespace Counterpart

/-! ### Loops that end -/

/-- A loop that stays where it is once it is done, and has less work left after every round before, is done
from some round on, and there are at most as many rounds as there was work. -/
theorem exists_iterate_done {α : Type} {f : α → α} {I : α → Prop} (done : α → Prop) (work : α → Nat)
    (hfixed : ∀ s, done s → f s = s) (hkeep : ∀ s, I s → I (f s))
    (hless : ∀ s, I s → ¬ done s → work (f s) < work s) {s : α} (h : I s) :
    ∃ n ≤ work s, ∀ k, done (f^[k] s) ↔ n ≤ k := by
  induction hw : work s using Nat.strongRecOn generalizing s with
  | ind w ih =>
    by_cases hs : done s
    · refine ⟨0, Nat.zero_le w, fun k => ?_⟩
      rw [Function.iterate_fixed (hfixed s hs)]
      exact iff_of_true hs (Nat.zero_le k)
    · have hlt := hless s h hs
      obtain ⟨n, hn, hrounds⟩ := ih (work (f s)) (hw ▸ hlt) (hkeep s h) rfl
      refine ⟨n + 1, by omega, fun k => ?_⟩
      cases k with
      | zero => exact iff_of_false hs (Nat.not_succ_le_zero n)
      | succ k => rw [Function.iterate_succ_apply, hrounds, Nat.succ_le_succ_iff]

/-! ### Depth -/

namespace Tree

variable {t u : Tree}

/-- The number of steps from `n` down to a node at or below it. -/
def depthBelow (t : Tree) (n m : Nat) : Nat :=
  t.depth m - t.depth n

theorem depthBelow_child {n m c : Nat} (hm : m ∈ t.descendants n) (hc : c ∈ t.children m) :
    t.depthBelow n c = t.depthBelow n m + 1 := by
  have hle := depth_le_of_mem_descendants hm
  have hdepth := depth_of_parent (mem_children.1 hc)
  unfold depthBelow
  omega

/-- The ends of `l` lie at or below those of `p`, and as many steps below on one side as on the other. -/
def EquallyDeep (t u : Tree) (p l : Link) : Prop :=
  LinkWithin t u p l ∧ t.depthBelow p.1 l.1 = u.depthBelow p.2 l.2

theorem EquallyDeep.refl (t u : Tree) (p : Link) : EquallyDeep t u p p := by
  refine ⟨.refl t u p, ?_⟩
  unfold depthBelow
  omega

theorem passesDown_equallyDeep (t u : Tree) (p : Link) : PassesDown t u (EquallyDeep t u p) := by
  rintro l ⟨hwithin, hdepth⟩ c hc d hd
  refine ⟨passesDown_linkWithin t u p l hwithin c hc d hd, ?_⟩
  rw [depthBelow_child hwithin.1 hc, depthBelow_child hwithin.2 hd, hdepth]

end Tree

namespace Alignment

open Matching Counterpart.Tree

variable {config : AlignmentConfig} {t u : Tree} {a b : Nat}

/-! ### Pairing two subtrees along a stack -/

/-- Pair the two nodes on top of a stack if both are free, and put the pairs of their children in their
place, the last one on top. Otherwise they are dropped. -/
def pairTop (t u : Tree) : Matching × List Link → Matching × List Link
  | (m, []) => (m, [])
  | (m, l :: stack) =>
    if m.hasSource l.1 || m.hasTarget l.2 then (m, stack)
    else (m.pair l.1 l.2, ((t.children l.1).zip (u.children l.2)).reverse ++ stack)

/-- Pair the subtrees of each pair on a stack, the top one first. -/
def pairStack (t u : Tree) (m : Matching) (stack : List Link) : Matching :=
  stack.foldl (fun m l => pairSubtrees t u m l.1 l.2) m

theorem pairOverlays_eq_foldl (m : Matching) (cs : List (Rose Link)) :
    pairOverlays m cs = cs.reverse.foldl pairOverlay m := by
  induction cs with
  | nil => rfl
  | cons c cs ih => rw [pairOverlays, ih, List.reverse_cons, List.foldl_append]; rfl

theorem pairSubtrees_eq (m : Matching) (a b : Nat) :
    pairSubtrees t u m a b =
      if m.hasSource a || m.hasTarget b then m
      else pairStack t u (m.pair a b) ((t.children a).zip (u.children b)).reverse := by
  rw [pairSubtrees, subtree_eq, subtree_eq, Rose.zip_node, pairOverlay, pairOverlays_eq_foldl,
    List.zipWith_map, ← List.map_uncurry_zip_eq_zipWith, ← List.map_reverse, List.foldl_map]
  rfl

/-- A round leaves what the stack stands for. -/
theorem pairStack_pairTop (s : Matching × List Link) :
    pairStack t u (pairTop t u s).1 (pairTop t u s).2 = pairStack t u s.1 s.2 := by
  obtain ⟨m, stack⟩ := s
  cases stack with
  | nil => rfl
  | cons l stack =>
    have hcons : pairStack t u m (l :: stack) = pairStack t u (pairSubtrees t u m l.1 l.2) stack := rfl
    rw [pairTop, hcons, pairSubtrees_eq]
    split
    · rfl
    · exact List.foldl_append

theorem pairStack_iterate (n : Nat) (s : Matching × List Link) :
    pairStack t u ((pairTop t u)^[n] s).1 ((pairTop t u)^[n] s).2 = pairStack t u s.1 s.2 := by
  induction n with
  | zero => rfl
  | succ n ih => rw [Function.iterate_succ_apply', pairStack_pairTop, ih]

theorem pending_pairTop (s : Matching × List Link) (hs : s.2 ≠ []) :
    t.pending (pairTop t u s).2 < t.pending s.2 := by
  obtain ⟨m, stack⟩ := s
  cases stack with
  | nil => exact absurd rfl hs
  | cons l stack =>
    obtain ⟨x, y⟩ := l
    rw [pairTop]
    split
    · have hpos := List.length_pos_of_mem (self_mem_descendants t x)
      show t.pending stack < t.pending ((x, y) :: stack)
      rw [pending_cons]
      omega
    · exact pending_children t u x y stack

/-- Pairing two subtrees takes at most as many rounds as the source subtree has nodes. -/
theorem iterate_pairTop_ends (t u : Tree) (m : Matching) (a b : Nat) :
    ∃ n ≤ (t.descendants a).length, (pairTop t u)^[n] (m, [(a, b)]) = (pairSubtrees t u m a b, []) := by
  have hfixed : ∀ s : Matching × List Link, s.2 = [] → pairTop t u s = s := by
    rintro ⟨m, stack⟩ (rfl : stack = [])
    rfl
  obtain ⟨n, hn, hrounds⟩ := exists_iterate_done (I := fun _ => True) (fun s => s.2 = [])
    (fun s => t.pending s.2) hfixed (fun _ _ => trivial) (fun s _ => pending_pairTop s)
    (s := (m, [(a, b)])) trivial
  refine ⟨n, ?_, ?_⟩
  · rwa [pending_cons] at hn
  · have hempty := (hrounds n).2 (Nat.le_refl n)
    have hpaired := pairStack_iterate (t := t) (u := u) n (m, [(a, b)])
    rw [hempty] at hpaired
    exact Prod.ext hpaired hempty

/-! ### The candidates of one turn -/

theorem nodup_childCandidates (t u : Tree) (m : Matching) (a b : Nat) :
    (childCandidates t u m a b).Nodup := by
  have hcouples : ((t.children a).flatMap fun c =>
      ((u.children b).filter fun d => !m.hasTarget d).map fun d => (c, d)).Nodup :=
    (nodup_children t a).product ((nodup_children u b).filter _)
  refine (hcouples.filter _).append (hcouples.filter _) fun l hl hl' => ?_
  have hequal := (List.mem_filter.1 hl).2
  have halike := (List.mem_filter.1 hl').2
  simp only [decide_eq_true_eq, Bool.and_eq_true] at hequal halike
  exact halike.1 hequal

/-- A candidate gives rise to pairs of its children, to none of them twice. -/
theorem examine_candidates (config : AlignmentConfig) (t u : Tree) (m : Matching) (l : Link) :
    (examine config t u m l).2.Nodup ∧
      ∀ k ∈ (examine config t u m l).2, k.1 ∈ t.children l.1 ∧ k.2 ∈ u.children l.2 := by
  rcases examine_cases config t u m l with he | ⟨-, -, -, he⟩ | he
  · simp [he]
  · simp [he]
  · rw [he]
    exact ⟨nodup_childCandidates t u m l.1 l.2, fun k hk => mem_childCandidates hk⟩

/-! ### A search -/

/-- A search for identical parts under way. -/
structure Search where
  matching : Matching
  /-- The stack of candidates, the top one first. -/
  waiting : List Link
  /-- The candidates that were taken from the stack. -/
  looked : List Link
  /-- The candidates that were ever put on the stack. -/
  pushed : List Link

namespace Search

/-- Before the first turn the two roots are the only candidate. -/
def start (a b : Nat) : Search where
  matching := .empty
  waiting := [(a, b)]
  looked := []
  pushed := [(a, b)]

/-- Take the candidate on top of the stack, look at it, and put the candidates on the stack that it gives
rise to. Without candidates nothing happens. -/
def turn (config : AlignmentConfig) (t u : Tree) (s : Search) : Search :=
  match s.waiting with
  | [] => s
  | l :: rest =>
    let seen := examine config t u s.matching l
    { matching := seen.1
      waiting := seen.2 ++ rest
      looked := s.looked ++ [l]
      pushed := s.pushed ++ seen.2 }

variable {s : Search}

theorem turn_of_waiting_nil (h : s.waiting = []) : turn config t u s = s := by
  rw [turn, h]

theorem turn_of_waiting_cons {l : Link} {rest : List Link} (h : s.waiting = l :: rest) :
    turn config t u s =
      { matching := (examine config t u s.matching l).1
        waiting := (examine config t u s.matching l).2 ++ rest
        looked := s.looked ++ [l]
        pushed := s.pushed ++ (examine config t u s.matching l).2 } := by
  rw [turn, h]

/-- What is true of a search below the ends of `p`: it has looked at all candidates that do not wait, and
every candidate but `p` came up when it looked at the pair of the parents. -/
structure IsSound (t u : Tree) (p : Link) (s : Search) : Prop where
  equallyDeep : ∀ l ∈ s.pushed, EquallyDeep t u p l
  nodup : s.pushed.Nodup
  perm : s.pushed.Perm (s.looked ++ s.waiting)
  opened : ∀ l ∈ s.pushed, l = p ∨ ∃ k ∈ s.looked, l.1 ∈ t.children k.1 ∧ l.2 ∈ u.children k.2

theorem isSound_start (t u : Tree) (a b : Nat) : (start a b).IsSound t u (a, b) where
  equallyDeep _ hl := List.mem_singleton.1 hl ▸ .refl t u (a, b)
  nodup := List.nodup_singleton _
  perm := List.Perm.refl _
  opened _ hl := .inl (List.mem_singleton.1 hl)

variable {p : Link}

/-- The pairs of children of a candidate that waits are new. -/
theorem IsSound.not_mem_pushed (h : s.IsSound t u p) {k l : Link} (hl : l ∈ s.waiting)
    (hk1 : k.1 ∈ t.children l.1) (hk2 : k.2 ∈ u.children l.2) : k ∉ s.pushed := by
  intro hk
  have hnodup := List.nodup_append.1 (h.perm.nodup_iff.1 h.nodup)
  rcases h.opened k hk with rfl | ⟨q, hq, hq1, hq2⟩
  · -- the roots are no children of anything below them
    have hwithin := (h.equallyDeep l (h.perm.mem_iff.2 (List.mem_append_right _ hl))).1.1
    have hlt := lt_of_parent (mem_children.1 hk1)
    have hle := le_of_mem_descendants hwithin
    omega
  · -- parents are unique, so `k` came up when the search looked at `l`
    have hsource : q.1 = l.1 := Option.some.inj ((mem_children.1 hq1).symm.trans (mem_children.1 hk1))
    have htarget : q.2 = l.2 := Option.some.inj ((mem_children.1 hq2).symm.trans (mem_children.1 hk2))
    exact hnodup.2.2 q hq l hl (Prod.ext hsource htarget)

/-- A turn keeps a search sound: it moves the candidate on top to those looked at, and what it pushes are
pairs of children of that candidate. -/
theorem IsSound.after_turn (config : AlignmentConfig) (h : s.IsSound t u p) :
    (turn config t u s).IsSound t u p := by
  cases hw : s.waiting with
  | nil => rwa [turn_of_waiting_nil hw]
  | cons l rest =>
    rw [turn_of_waiting_cons hw]
    obtain ⟨hnew, hchildren⟩ := examine_candidates config t u s.matching l
    have hlw : l ∈ s.waiting := hw ▸ List.mem_cons_self
    have hl : l ∈ s.pushed := h.perm.mem_iff.2 (List.mem_append_right _ hlw)
    refine ⟨fun k hk => ?_, ?_, ?_, fun k hk => ?_⟩
    · rcases List.mem_append.1 hk with hk | hk
      · exact h.equallyDeep k hk
      · obtain ⟨hk1, hk2⟩ := hchildren k hk
        exact passesDown_equallyDeep t u p l (h.equallyDeep l hl) k.1 hk1 k.2 hk2
    · refine h.nodup.append hnew fun k hk hk' => ?_
      obtain ⟨hk1, hk2⟩ := hchildren k hk'
      exact h.not_mem_pushed hlw hk1 hk2 hk
    · have hperm := h.perm
      rw [hw] at hperm
      calc List.Perm (s.pushed ++ (examine config t u s.matching l).2)
            (s.looked ++ l :: rest ++ (examine config t u s.matching l).2) := hperm.append_right _
        _ = s.looked ++ [l] ++ (rest ++ (examine config t u s.matching l).2) := by simp
        List.Perm _ (s.looked ++ [l] ++ ((examine config t u s.matching l).2 ++ rest)) :=
          List.perm_append_comm.append_left _
    · rcases List.mem_append.1 hk with hk | hk
      · refine (h.opened k hk).imp_right ?_
        rintro ⟨q, hq, hchild⟩
        exact ⟨q, List.mem_append_left _ hq, hchild⟩
      · exact .inr ⟨l, List.mem_append_right _ List.mem_cons_self, hchildren k hk⟩

/-- There are no more candidates than pairs of a node of one and a node of the other subtree. -/
theorem IsSound.length_pushed_le (h : s.IsSound t u p) :
    s.pushed.length ≤ (t.descendants p.1).length * (u.descendants p.2).length := by
  have hsubset : s.pushed ⊆ (t.descendants p.1).product (u.descendants p.2) := fun l hl =>
    List.mem_product.2 (h.equallyDeep l hl).1
  rw [← List.length_product]
  exact (List.subperm_of_subset h.nodup hsubset).length_le

theorem IsSound.length_looked_add (h : s.IsSound t u p) :
    s.looked.length + s.waiting.length = s.pushed.length := by
  rw [h.perm.length_eq, List.length_append]

theorem length_looked_turn (config : AlignmentConfig) (t u : Tree) (h : s.waiting ≠ []) :
    (turn config t u s).looked.length = s.looked.length + 1 := by
  obtain ⟨l, rest, hw⟩ := List.exists_cons_of_ne_nil h
  rw [turn_of_waiting_cons hw, List.length_append]
  rfl

/-- As long as candidates wait, a turn looks at one of them. -/
theorem length_looked_iterate (s : Search) (n : Nat)
    (h : ∀ k < n, ((turn config t u)^[k] s).waiting ≠ []) :
    ((turn config t u)^[n] s).looked.length = s.looked.length + n := by
  induction n with
  | zero => rfl
  | succ n ih =>
    rw [Function.iterate_succ_apply', length_looked_turn config t u (h n (Nat.lt_succ_self n)),
      ih fun k hk => h k (Nat.lt_succ_of_lt hk)]
    rfl

/-- A search ends after at most as many turns as there are pairs of nodes of the two subtrees: what is left
of that number gets less with every turn. -/
theorem exists_last_turn (config : AlignmentConfig) (t u : Tree) (a b : Nat) :
    ∃ n ≤ (t.descendants a).length * (u.descendants b).length,
      ∀ k, ((turn config t u)^[k] (start a b)).waiting = [] ↔ n ≤ k := by
  refine exists_iterate_done (fun s => s.waiting = [])
    (fun s => (t.descendants a).length * (u.descendants b).length - s.looked.length)
    (fun _ => turn_of_waiting_nil) (fun _ => IsSound.after_turn config) (fun s hs hw => ?_)
    (isSound_start t u a b)
  have hlooked := length_looked_turn config t u hw
  have hbound : s.pushed.length ≤ (t.descendants a).length * (u.descendants b).length :=
    hs.length_pushed_le
  have hsum := hs.length_looked_add
  have hpos := List.length_pos_of_ne_nil hw
  omega

/-- A sweep with a bound is as many turns. -/
theorem sweep_eq_iterate (config : AlignmentConfig) (t u : Tree) (bound : Nat) (s : Search) :
    sweep config t u bound s.matching s.waiting = ((turn config t u)^[bound] s).matching := by
  induction bound generalizing s with
  | zero => rfl
  | succ bound ih =>
    rw [Function.iterate_succ_apply, ← ih]
    cases hw : s.waiting with
    | nil => rw [turn_of_waiting_nil hw, hw, sweep_nil, sweep_nil]
    | cons l rest => rw [turn_of_waiting_cons hw, sweep]

theorem topDown_eq_iterate (config : AlignmentConfig) (t u : Tree) (a b : Nat) :
    topDown config t u a b = ((turn config t u)^[(t.descendants a).length * (u.descendants b).length]
      (start a b)).matching :=
  sweep_eq_iterate config t u _ (start a b)

/-- Once no candidate waits, further turns change nothing. -/
theorem iterate_turn_of_le {n k : Nat} (h : ((turn config t u)^[n] s).waiting = []) (hk : n ≤ k) :
    (turn config t u)^[k] s = (turn config t u)^[n] s := by
  obtain ⟨j, rfl⟩ := Nat.exists_eq_add_of_le' hk
  rw [Function.iterate_add_apply, Function.iterate_fixed (turn_of_waiting_nil h)]

end Search

theorem equallyDeep_of_mem_topDown {l : Link} (h : l ∈ (topDown config t u a b).pairs) :
    EquallyDeep t u (a, b) l := by
  have hgrows := sweep_grows config (passesDown_equallyDeep t u (a, b))
    ((t.descendants a).length * (u.descendants b).length) .empty [(a, b)] fun k hk =>
      List.mem_singleton.1 hk ▸ .refl t u (a, b)
  exact (hgrows.forall_mem l h).1

open Search

/-- The search for identical parts of two subtrees ends. There is a number of turns, at most the product of
the sizes of the subtrees, after which no candidate waits and before which one does; that many candidates
have been looked at by then, each that was ever pushed exactly once, and the matching is that of `topDown`.
At no time a candidate has been pushed twice, and all that have been pushed join nodes that are equally deep
below the two roots. So do the pairs that are found. Within a turn, pairing two subtrees ends as well. -/
theorem topDown_ends (config : AlignmentConfig) (t u : Tree) (a b : Nat) :
    (∃ n ≤ (t.descendants a).length * (u.descendants b).length,
      (∀ k, ((turn config t u)^[k] (start a b)).waiting = [] ↔ n ≤ k) ∧
      ((turn config t u)^[n] (start a b)).looked.length = n ∧
      ((turn config t u)^[n] (start a b)).looked.Perm ((turn config t u)^[n] (start a b)).pushed ∧
      ((turn config t u)^[n] (start a b)).matching = topDown config t u a b) ∧
    (∀ k, ((turn config t u)^[k] (start a b)).pushed.Nodup ∧
      ∀ l ∈ ((turn config t u)^[k] (start a b)).pushed, EquallyDeep t u (a, b) l) ∧
    (∀ l ∈ (topDown config t u a b).pairs, EquallyDeep t u (a, b) l) ∧
    ∀ m x y, ∃ n ≤ (t.descendants x).length,
      (pairTop t u)^[n] (m, [(x, y)]) = (pairSubtrees t u m x y, []) := by
  have hsound : ∀ k, ((turn config t u)^[k] (start a b)).IsSound t u (a, b) :=
    Function.Iterate.rec (IsSound t u (a, b)) (isSound_start t u a b) fun _ => IsSound.after_turn config
  refine ⟨?_, fun k => ⟨(hsound k).nodup, (hsound k).equallyDeep⟩,
    fun _ => equallyDeep_of_mem_topDown, iterate_pairTop_ends t u⟩
  obtain ⟨n, hn, hturns⟩ := exists_last_turn config t u a b
  have hempty := (hturns n).2 (Nat.le_refl n)
  refine ⟨n, hn, hturns, ?_, ?_, ?_⟩
  · have hlooked := length_looked_iterate (start a b) n fun k hk hw =>
      absurd ((hturns k).1 hw) (Nat.not_le_of_lt hk)
    simpa [start] using hlooked
  · have hperm := (hsound n).perm
    rw [hempty, List.append_nil] at hperm
    exact hperm.symm
  · rw [topDown_eq_iterate, iterate_turn_of_le hempty hn]

/-- A finished block with one statement of two names. -/
def blockNaming (first second : String) : Tree :=
  (((single ⟨Kind.block, none⟩ ⟨0, 9⟩).addChild 0 ⟨Kind.expressionStatement, none⟩ ⟨1, 8⟩).addChild 1
    ⟨Kind.simpleName, some first⟩ ⟨2, 3⟩).addChild 1 ⟨Kind.simpleName, some second⟩ ⟨4, 5⟩ |>.finish

/-- All names of two statements are candidates, the equal ones first; six of the sixteen pairs of nodes are
looked at. -/
theorem movedName_found_in_six_turns :
    let t := blockNaming "x" "y"
    let u := blockNaming "y" "z"
    let ended := (turn {} t u)^[6] (start 0 0)
    ended.waiting = [] ∧ ended.pushed = [(0, 0), (1, 1), (3, 2), (2, 2), (2, 3), (3, 3)] ∧
      ended.pushed.Nodup ∧ EquallyDeep t u (0, 0) (2, 3) ∧
      (3, 2) ∈ (topDown {} t u 0 0).pairs ∧ EquallyDeep t u (0, 0) (3, 2) ∧
      ∃ n ≤ 4, (pairTop t u)^[n] (.empty, [(0, 0)]) = (pairSubtrees t u .empty 0 0, []) := by
  intro t u ended
  have hpushed : ended.pushed = [(0, 0), (1, 1), (3, 2), (2, 2), (2, 3), (3, 3)] := by decide +kernel
  have hfound : (3, 2) ∈ (topDown {} t u 0 0).pairs := by decide +kernel
  obtain ⟨-, hcandidates, hdeep, hpairing⟩ := topDown_ends {} t u 0 0
  obtain ⟨hnodup, hpushedDeep⟩ := hcandidates 6
  have hmem : (2, 3) ∈ ended.pushed := by
    rw [hpushed]
    decide
  exact ⟨by decide +kernel, hpushed, hnodup, hpushedDeep (2, 3) hmem, hfound, hdeep (3, 2) hfound,
    hpairing .empty 0 0⟩

end Alignment

end Counterpart
