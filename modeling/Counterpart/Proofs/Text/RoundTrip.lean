import Counterpart.Proofs.Text.Planting
import Counterpart.Proofs.Text.Reading
import Counterpart.Proofs.Tree.Finished
import Counterpart.Tree.Text

/-!
# From a tree to text and back

Rendering a subtree and parsing the text gives back its term (`parse_render`). The printer decides about
quotes by a wider class of blanks than the reader splits by, so a label without quotes is read as one run;
every other label is inside quotes, where each character is read as itself.
-/

namespace Counterpart

namespace Text

mutual

/-- The layout of a sketch writes the same term. -/
theorem map_atom_layout : ∀ (s : Sketch) (start : Nat), (layout start s).map Placed.atom = s.term
  | .node w [], start => rfl
  | .node w (c :: cs), start => by
    have hbelow := map_atom_layoutAll (c :: cs) (start + 1)
    rw [layout, Sketch.term, Rose.map_node, Rose.map_node]
    exact congrArg (Rose.node w.atom) hbelow

theorem map_atom_layoutAll : ∀ (cs : List Sketch) (start : Nat),
    (layoutAll start cs).1.map (Rose.map Placed.atom) = cs.map Sketch.term
  | [], _ => rfl
  | c :: cs, start => by
    have hfirst := map_atom_layout c start
    have hrest := map_atom_layoutAll cs ((layout start c).value.span.stop + 1)
    rw [layoutAll, List.map_cons, List.map_cons, hfirst, hrest]

end

end Text

namespace Tree

open Text

variable {t : Tree} {text : String}

theorem parse_eq_ok_iff : parse text = .ok t ↔
    ∃ s, Sketch.read text = .ok s ∧ (plant (layout 0 s)).finish = t := by
  unfold parse
  cases Sketch.read text with
  | error e => simp [Except.map]
  | ok s => simp [Except.map]

/-- The tree that is planted for a sketch has the term that the sketch writes. -/
theorem term_plant_layout (s : Sketch) : (plant (layout 0 s)).finish.term root = s.term := by
  rw [term_finish, ← map_atom_placed, placed_plant, map_atom_layout]

/-- Parsing the written form of a term whose kinds are words gives back the term. -/
theorem parse_write {r : Term} (hr : HasWords r) :
    ∃ u, parse (String.ofList (write r)) = .ok u ∧ u.term root = r := by
  refine ⟨_, parse_eq_ok_iff.2 ⟨sketch r, read_write hr, rfl⟩, ?_⟩
  rw [term_plant_layout, term_sketch]

theorem hasWords_of_parse (h : parse text = .ok t) : HasWords (t.term root) := by
  obtain ⟨s, hs, rfl⟩ := parse_eq_ok_iff.1 h
  rw [term_plant_layout]
  exact hasWords_of_read hs

theorem hasWords_term (h : ∀ k < t.count, IsWord (t.kind k)) {n : Nat} (hn : n < t.count) :
    HasWords (t.term n) := by
  induction n using children_induction (t := t) with
  | step n ih =>
    rw [term_eq, hasWords_node, List.forall_mem_map]
    exact ⟨h n hn, fun c hc => ih c hc (lt_count_of_parent (mem_children.1 hc))⟩

/-- A subtree whose kinds are words is given back by its text form, whatever the labels are. All that is
ever parsed is of this sort, so rendering what was parsed and parsing it again changes nothing. -/
theorem parse_render :
    (∀ t : Tree, (∀ k < t.count, IsWord (t.kind k)) → ∀ n < t.count,
      ∃ u, parse (t.render n) = .ok u ∧ u.term root = t.term n) ∧
    ∀ (text : String) (t : Tree), parse text = .ok t →
      ∃ u, parse (t.render root) = .ok u ∧ u.term root = t.term root ∧
        u.render root = t.render root := by
  constructor
  · intro t hwords n hn
    exact parse_write (hasWords_term hwords hn)
  · intro text t ht
    obtain ⟨u, hparse, hterm⟩ := parse_write (hasWords_of_parse ht)
    refine ⟨u, hparse, hterm, ?_⟩
    rw [render, hterm, render]

/-- Labels that are absent, empty, quoted, escaped or mistakable for something else. -/
def oddLabels : Tree :=
  (((((single ⟨"A", none⟩ ⟨0, 9⟩).addChild 0 ⟨"\"B", some ""⟩ ⟨1, 2⟩).addChild 0 ⟨"C", some "\"x) \\"⟩
    ⟨3, 4⟩).addChild 2 ⟨"D", some ":a:"⟩ ⟨3, 4⟩).addChild 2 ⟨"E", some "\u00a0\\"⟩ ⟨3, 4⟩).addChild 0
    ⟨"F", none⟩ ⟨5, 6⟩

/-- A text with needless quotes, parentheses and blanks. -/
def wordyText : String :=
  " ( A:\"b\"\t(B) )\n"

def wordySketch : Sketch :=
  .node ⟨⟨"A", some "b"⟩, true⟩ [.node ⟨⟨"B", none⟩, true⟩ []]

theorem oddLabels_parse_render :
    oddLabels.render root = "(A \"B:\"\" (C:\"\\\"x) \\\\\" D::a: E:\"\u00a0\\\\\") F)" ∧
    (∃ u, parse (oddLabels.render root) = .ok u ∧ u.term root = oddLabels.term root) ∧
    (∃ u, parse (oddLabels.render 2) = .ok u ∧ u.term root = oddLabels.term 2) ∧
    ∃ t u, parse wordyText = .ok t ∧ t.render root = "(A:b B)" ∧ parse "(A:b B)" = .ok u ∧
      u.term root = t.term root := by
  obtain ⟨hsubtrees, htexts⟩ := parse_render
  have hwords : ∀ k < oddLabels.count, IsWord (oddLabels.kind k) := by decide +kernel
  refine ⟨by decide +kernel, hsubtrees oddLabels hwords root (by decide +kernel),
    hsubtrees oddLabels hwords 2 (by decide +kernel), ?_⟩
  have hparse := parse_eq_ok_iff.2 ⟨wordySketch, (rfl : Sketch.read wordyText = .ok wordySketch), rfl⟩
  have hrender : (plant (layout 0 wordySketch)).finish.render root = "(A:b B)" := by decide +kernel
  obtain ⟨u, hu, hterm, -⟩ := htexts wordyText _ hparse
  rw [hrender] at hu
  exact ⟨_, u, hparse, hrender, hu, hterm⟩

end Tree

end Counterpart
