import Counterpart.Proofs.Text.Recognition
import Counterpart.Proofs.Text.RoundTrip

/-!
# What parsing accepts, and how it numbers the nodes

Parsing succeeds exactly on the texts that have a derivation, with the term that is derived; there is one
derivation; and the nodes are numbered in pre-order (`parse_iff_derivation`). The last part is about
planting: nodes that are grafted get the numbers from the first free one on, each before its children
(`graft_numbers`).
-/

namespace Counterpart

open Text

namespace Tree

variable {t u : Tree} {p : Nat}

/-! ### Numbering -/

/-- A subtree is known by the children of its nodes. -/
theorem subtree_congr {n : Nat} (h : ∀ k ∈ t.descendants n, u.children k = t.children k) :
    u.subtree n = t.subtree n := by
  induction n using children_induction (t := t) with
  | step n ih =>
    rw [subtree_eq, subtree_eq t, h n (self_mem_descendants t n)]
    refine congrArg _ (List.map_congr_left fun c hc => ih c hc fun k hk => ?_)
    exact h k (mem_descendants_trans (mem_descendants_of_child hc) hk)

/-- A subtree that does not hold `p` keeps its nodes. -/
theorem Extends.descendants_eq {ns : List Nat} {n : Nat} (h : Extends t u p ns) (hn : n < t.count)
    (hp : p ∉ t.descendants n) : u.descendants n = t.descendants n := by
  have hchildren : ∀ k ∈ t.descendants n, u.children k = t.children k := by
    intro k hk
    have hne : p ≠ k := by
      rintro rfl
      exact hp hk
    rw [h.children_eq k (lt_count_of_mem_descendants hn hk), if_neg hne, List.append_nil]
  rw [descendants, descendants, subtree_congr hchildren]

/-- The numbers from that of one tree's next node up to those of another. -/
def numbersBetween (t u : Tree) : List Nat :=
  List.range' t.count (u.count - t.count)

theorem numbersBetween_append {w : Tree} (htu : t.count ≤ u.count) (huw : u.count ≤ w.count) :
    numbersBetween t u ++ numbersBetween u w = numbersBetween t w := by
  unfold numbersBetween
  rw [show w.count - t.count = (u.count - t.count) + (w.count - u.count) by omega, ← List.range'_append,
    show t.count + 1 * (u.count - t.count) = u.count by omega]

theorem numbersBetween_addChild (hp : p < t.count) (a : Atom) (s : Span) (hu : t.count < u.count) :
    t.count :: numbersBetween (t.addChild p a s) u = numbersBetween t u := by
  unfold numbersBetween
  rw [count_addChild hp, show u.count - t.count = (u.count - (t.count + 1)) + 1 by omega,
    List.range'_succ]

end Tree

namespace Text

open Counterpart.Tree

mutual

/-- The nodes of a graft are the new ones, in the order of their numbers. -/
theorem graft_numbers : ∀ (r : Rose Placed) (t : Tree) (p : Nat), p < t.count →
    t.count < (graft t p r).count ∧
      (graft t p r).descendants t.count = numbersBetween t (graft t p r)
  | .node v cs, t, p, hp => by
    have hnew : t.count < (t.addChild p v.atom v.span).count := by
      rw [count_addChild hp]
      exact Nat.lt_succ_self _
    obtain ⟨ns, hext, hns⟩ := graftAll_numbers cs (t.addChild p v.atom v.span) t.count hnew
    have hlt : t.count < (graftAll (t.addChild p v.atom v.span) t.count cs).count :=
      Nat.lt_of_lt_of_le hnew hext.count_le
    rw [graft]
    refine ⟨hlt, ?_⟩
    rw [descendants_eq, hext.children_new hp, hns, numbersBetween_addChild hp _ _ hlt]

/-- So are the nodes of several grafts, one after the other. -/
theorem graftAll_numbers : ∀ (cs : List (Rose Placed)) (t : Tree) (p : Nat), p < t.count →
    ∃ ns, Extends t (graftAll t p cs) p ns ∧
      ns.flatMap (graftAll t p cs).descendants = numbersBetween t (graftAll t p cs)
  | [], t, p, _ => by
    refine ⟨[], extends_refl t p, ?_⟩
    rw [graftAll, numbersBetween, Nat.sub_self]
    rfl
  | c :: cs, t, p, hp => by
    obtain ⟨hfirst, -⟩ := graft_spec c t p hp
    obtain ⟨hnew, hnumbers⟩ := graft_numbers c t p hp
    obtain ⟨ns, hrest, hns⟩ := graftAll_numbers cs (graft t p c) p (Nat.lt_trans hp hnew)
    rw [graftAll]
    refine ⟨t.count :: ns, hfirst.trans hrest, ?_⟩
    -- `p` is older than the first graft, which therefore keeps its nodes
    have hout : p ∉ (graft t p c).descendants t.count := by
      intro hmem
      have := le_of_mem_descendants hmem
      omega
    rw [List.flatMap_cons, hrest.descendants_eq hnew hout, hnumbers, hns,
      numbersBetween_append hfirst.count_le hrest.count_le]

end

/-- The tree that is planted from a layout has its nodes numbered in pre-order. -/
theorem preOrder_plant (r : Rose Placed) : (plant r).preOrder = List.range (plant r).count := by
  obtain ⟨v, cs⟩ := r
  have hroot : root < (single v.atom v.span).count := root_lt_count _
  obtain ⟨ns, hext, hns⟩ := graftAll_numbers cs (single v.atom v.span) root hroot
  have hcount : (single v.atom v.span).count = 1 := rfl
  have hle := hext.count_le
  show (graftAll (single v.atom v.span) root cs).preOrder =
    List.range (graftAll (single v.atom v.span) root cs).count
  rw [preOrder, descendants_eq, hext.children_root, hns, numbersBetween, hcount, List.range_eq_range',
    show (graftAll (single v.atom v.span) root cs).count =
      ((graftAll (single v.atom v.span) root cs).count - 1) + 1 by omega, List.range'_succ]
  rfl

end Text

namespace Tree

/-! ### Parsing -/

/-- A text is parsed with a term if and only if it has a derivation of the term. It has no more than one
derivation, and parsing numbers the nodes in pre-order. -/
theorem parse_iff_derivation :
    (∀ (text : String) (r : Term), (∃ t, parse text = .ok t ∧ t.term root = r) ↔
      ∃ d : Document, d.IsValid ∧ d.text = text.toList ∧ d.sketch.term = r) ∧
    (∀ d e : Document, d.IsValid → e.IsValid → d.text = e.text → d = e) ∧
    ∀ (text : String) (t : Tree), parse text = .ok t → t.preOrder = List.range t.count := by
  refine ⟨fun text r => ⟨?_, ?_⟩, fun d e => Document.text_injective, ?_⟩
  · rintro ⟨t, hparse, rfl⟩
    obtain ⟨s, hread, rfl⟩ := parse_eq_ok_iff.1 hparse
    obtain ⟨d, hvalid, htext, rfl⟩ := read_eq_ok_iff.1 hread
    exact ⟨d, hvalid, htext, (term_plant_layout d.sketch).symm⟩
  · rintro ⟨d, hvalid, htext, rfl⟩
    have hread := read_eq_ok_iff.2 ⟨d, hvalid, htext, rfl⟩
    exact ⟨_, parse_eq_ok_iff.2 ⟨d.sketch, hread, rfl⟩, term_plant_layout d.sketch⟩
  · intro text t hparse
    obtain ⟨s, -, rfl⟩ := parse_eq_ok_iff.1 hparse
    have hpre : (plant (layout 0 s)).finish.preOrder = (plant (layout 0 s)).preOrder := by
      rw [preOrder, preOrder, descendants, descendants, subtree_finish]
    rw [hpre, preOrder_plant, count_finish]

/-- Children without separators before them, empty labels, and quotes where they are ordinary
characters. -/
def crowded : Document where
  lead := [' ']
  root := .group [] ⟨"A", some (.quoted [⟨false, 'x'⟩, ⟨true, '"'⟩])⟩
    (.child [] (.group ['\t'] ⟨"B", some (.run [])⟩ (.close []))
      (.child [] (.bare ⟨"C", some (.run [])⟩)
        (.child [' '] (.bare ⟨"\"D", some (.run ['e', ':', '"', 'f'])⟩) (.close ['\n']))))
  trail := ['\r']

def crowdedText : String :=
  " (A:\"x\\\"\"(\tB:)C: \"D:e:\"f\n)\r"

theorem crowded_derives :
    crowded.IsValid ∧ crowded.text = crowdedText.toList ∧
    (∀ e : Document, e.IsValid → e.text = crowdedText.toList → e = crowded) ∧
    ∃ t, parse crowdedText = .ok t ∧ t.preOrder = List.range t.count ∧
      t.term root = .node ⟨"A", some "x\""⟩ [.node ⟨"B", some ""⟩ [], .node ⟨"C", some ""⟩ [],
        .node ⟨"\"D", some "e:\"f"⟩ []] := by
  obtain ⟨hiff, hunique, hnumbers⟩ := parse_iff_derivation
  have hvalid : crowded.IsValid := by decide +kernel
  have htext : crowded.text = crowdedText.toList := by decide +kernel
  obtain ⟨t, hparse, hterm⟩ := (hiff crowdedText _).2 ⟨crowded, hvalid, htext, rfl⟩
  refine ⟨hvalid, htext, fun e he hsame => ?_, t, hparse, hnumbers _ _ hparse, hterm⟩
  exact hunique e crowded he hvalid (hsame.trans htext.symm)

end Tree

end Counterpart
