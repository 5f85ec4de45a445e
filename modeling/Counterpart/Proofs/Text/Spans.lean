import Counterpart.Proofs.Text.Exactness
import Counterpart.Proofs.Tree.Resolution
import Mathlib.Algebra.Group.Nat.Defs

/-!
# The spans of a tree that was read from text

A layout is strictly nested (`layout_nested`) and less than twice as long as the text that it was made for
(`layout_stop_lt`): a child may follow its sibling without anything between them in the text, yet gets a gap
in the layout, but then it has a byte of its own to pay for it. So offsets that are machine words do not
overflow for a text of up to `2 ^ 31` bytes (`layoutChecked_eq`), spans are distinct, and every node is found
by its span (`parse_spans`).
-/

namespace Counterpart

namespace Text

/-! ### Nesting -/

/-- Spans cover something, lie strictly inside those of the parents, and those of siblings follow one
another with a gap between them. -/
inductive Nested : Rose Placed → Prop
  | node {v : Placed} {cs : List (Rose Placed)} (nonempty : v.span.start < v.span.stop)
      (inside : ∀ c ∈ cs, v.span.start < c.value.span.start ∧ c.value.span.stop < v.span.stop)
      (apart : cs.Pairwise fun c d => c.value.span.stop < d.value.span.start)
      (below : ∀ c ∈ cs, Nested c) : Nested (.node v cs)

theorem width_pos (a : Atom) : 0 < width a :=
  Nat.lt_of_lt_of_le Nat.zero_lt_one (Nat.le_max_left _ _)

mutual

theorem layout_nested : ∀ (s : Sketch) (start : Nat),
    Nested (layout start s) ∧ (layout start s).value.span.start = start ∧
      start < (layout start s).value.span.stop
  | .node w [], start => by
    have hwidth := width_pos w.atom
    have hlt : start <
        if w.grouped = true then start + 1 + width w.atom + 1 else start + width w.atom := by
      split <;> omega
    rw [layout]
    exact ⟨.node hlt (by simp) List.Pairwise.nil (by simp), rfl, hlt⟩
  | .node w (c :: cs), start => by
    obtain ⟨hbelow, hapart, hle⟩ := layoutAll_nested (c :: cs) (start + 1)
    rw [layout]
    refine ⟨.node hle (fun r hr => ?_) hapart fun r hr => (hbelow r hr).1, rfl, hle⟩
    obtain ⟨-, hstart, hstop⟩ := hbelow r hr
    exact ⟨hstart, hstop⟩

/-- Siblings are laid out between the offset where the first one starts and the one where another would
start. -/
theorem layoutAll_nested : ∀ (cs : List Sketch) (start : Nat),
    (∀ r ∈ (layoutAll start cs).1, Nested r ∧ start ≤ r.value.span.start ∧
      r.value.span.stop < (layoutAll start cs).2) ∧
    ((layoutAll start cs).1.Pairwise fun r s => r.value.span.stop < s.value.span.start) ∧
    start ≤ (layoutAll start cs).2
  | [], start => by
    rw [layoutAll]
    exact ⟨by simp, List.Pairwise.nil, Nat.le_refl _⟩
  | c :: cs, start => by
    obtain ⟨hfirst, hstart, hlt⟩ := layout_nested c start
    obtain ⟨hrest, hapart, hle⟩ := layoutAll_nested cs ((layout start c).value.span.stop + 1)
    rw [layoutAll]
    refine ⟨?_, List.pairwise_cons.2 ⟨fun r hr => (hrest r hr).2.1, hapart⟩, ?_⟩
    · intro r hr
      rcases List.mem_cons.1 hr with rfl | hr
      · exact ⟨hfirst, Nat.le_of_eq hstart.symm, hle⟩
      · obtain ⟨hnested, hafter, hbefore⟩ := hrest r hr
        exact ⟨hnested, by omega, hbefore⟩
    · show start ≤ (layoutAll ((layout start c).value.span.stop + 1) cs).2
      omega

end

/-! ### Length -/

theorem byteLength_pos {cs : List Char} (h : cs ≠ []) : 0 < byteLength cs := by
  cases cs with
  | nil => exact absurd rfl h
  | cons c cs =>
    have := Char.utf8Size_pos c
    rw [byteLength_cons]
    omega

/-- A label takes no more bytes than the text that writes it. -/
theorem LabelForm.byteLength_value_le (l : LabelForm) :
    byteLength l.value.toList ≤ byteLength l.text := by
  cases l with
  | run cs =>
    rw [value, String.toList_ofList]
    exact Nat.le_refl _
  | quoted qs =>
    have hchars : byteLength (qs.map QuotedChar.char) ≤ byteLength (qs.flatMap QuotedChar.text) := by
      induction qs with
      | nil => exact Nat.le_refl _
      | cons q qs ih =>
        have hq : q.char.utf8Size ≤ byteLength q.text := by
          rw [QuotedChar.text]
          split <;> simp
        rw [List.map_cons, List.flatMap_cons, byteLength_cons, byteLength_append]
        omega
    rw [value, String.toList_ofList, text, byteLength_cons, byteLength_append]
    omega

/-- An atom is no wider than the text that writes it. -/
theorem AtomForm.width_le {a : AtomForm} (h : IsWord a.kind) : width a.atom ≤ byteLength a.text := by
  obtain ⟨k, label⟩ := a
  have hkind : 0 < byteLength k.toList := byteLength_pos h.1
  cases label with
  | none =>
    rw [text, List.append_nil]
    exact Nat.max_le.2 ⟨hkind, Nat.le_refl _⟩
  | some l =>
    have hlabel := l.byteLength_value_le
    have htext : byteLength (text ⟨k, some l⟩) =
        byteLength k.toList + ((':' : Char).utf8Size + byteLength l.text) := by
      rw [text, byteLength_append, byteLength_cons]
    have hvalue : byteLength l.value.toList ≤ byteLength (text ⟨k, some l⟩) := by omega
    exact Nat.max_le.2 ⟨by omega, hvalue⟩

mutual

/-- The layout of a node stops before twice its text does. -/
theorem layout_stop_lt : ∀ (f : NodeForm) (rest : List Char) (start : Nat), f.Fits rest →
    (layout start f.sketch).value.span.stop < start + 2 * byteLength f.text
  | .bare a, _, start, h => by
    have hwidth := AtomForm.width_le h.1
    have hpos := width_pos a.atom
    show start + width a.atom < start + 2 * byteLength a.text
    omega
  | .group lead head (.close gap), _, start, h => by
    have hwidth := AtomForm.width_le h.2.1.1
    have hopen : ('(' : Char).utf8Size = 1 := rfl
    have hclose : byteLength [')'] = 1 := rfl
    show start + 1 + width head.atom + 1 < _
    rw [NodeForm.text, GroupTail.text, byteLength_cons, byteLength_append, byteLength_append,
      byteLength_append, hopen, hclose]
    omega
  | .group lead head (.child gap node tail), rest, start, h => by
    have hbelow := layoutAll_le (.child gap node tail) rest (start + 1) h.2.2
    have hopen : ('(' : Char).utf8Size = 1 := rfl
    show (layoutAll (start + 1) (GroupTail.child gap node tail).sketches).2 < _
    rw [NodeForm.text, byteLength_cons, byteLength_append, byteLength_append, hopen]
    omega

/-- The gap after a child is paid for by the strict bound on the child. -/
theorem layoutAll_le : ∀ (g : GroupTail) (rest : List Char) (start : Nat), g.Fits rest →
    (layoutAll start g.sketches).2 ≤ start + 2 * byteLength g.text
  | .close gap, _, start, _ => Nat.le_add_right _ _
  | .child gap node tail, rest, start, h => by
    have hfirst := layout_stop_lt node (tail.text ++ rest) start h.2.1
    have hrest := layoutAll_le tail rest ((layout start node.sketch).value.span.stop + 1) h.2.2
    rw [GroupTail.sketches, layoutAll, GroupTail.text, byteLength_append, byteLength_append]
    show (layoutAll ((layout start node.sketch).value.span.stop + 1) tail.sketches).2 ≤ _
    omega

end

/-! ### Offsets as machine words -/

/-- The sum of two words, if it is a word. -/
def addChecked (x y : UInt32) : Option UInt32 :=
  if x.toNat + y.toNat < UInt32.size then some (x + y) else none

theorem addChecked_eq {x y : UInt32} (h : x.toNat + y.toNat < UInt32.size) :
    ∃ z : UInt32, z.toNat = x.toNat + y.toNat ∧ addChecked x y = some z := by
  refine ⟨x + y, ?_, if_pos h⟩
  rw [UInt32.toNat_add]
  exact Nat.mod_eq_of_lt h

/-- The number of bytes that an atom covers, or the greatest word if it is no word. -/
def widthWord (a : Atom) : UInt32 :=
  .ofNatClamp (width a)

mutual

/-- Lay out a sketch from `start` on, with the offset where it stops; nothing if an addition overflows. -/
def layoutChecked (start : UInt32) : Sketch → Option (Rose Placed × UInt32)
  | .node w [] =>
    let stop? :=
      if w.grouped then
        (addChecked start 1).bind fun inner =>
          (addChecked inner (widthWord w.atom)).bind fun after => addChecked after 1
      else addChecked start (widthWord w.atom)
    stop?.map fun stop => (.node ⟨w.atom, start.toNat, stop.toNat⟩ [], stop)
  | .node w (c :: cs) =>
    (addChecked start 1).bind fun inner =>
      (layoutAllChecked inner (c :: cs)).map fun below =>
        (.node ⟨w.atom, start.toNat, below.2.toNat⟩ below.1, below.2)

/-- Lay out siblings from `start` on, with the offset where the next one would start. -/
def layoutAllChecked (start : UInt32) : List Sketch → Option (List (Rose Placed) × UInt32)
  | [] => some ([], start)
  | c :: cs =>
    (layoutChecked start c).bind fun first =>
      (addChecked first.2 1).bind fun next =>
        (layoutAllChecked next cs).map fun rest => (first.1 :: rest.1, rest.2)

end

theorem toNat_widthWord {a : Atom} (h : width a < UInt32.size) : (widthWord a).toNat = width a := by
  rw [widthWord, UInt32.toNat_ofNatClamp_of_lt h]

mutual

/-- Where the last offset is a word no addition overflows: offsets only grow on the way. -/
theorem layoutChecked_eq : ∀ (s : Sketch) (start : UInt32),
    (layout start.toNat s).value.span.stop < UInt32.size →
      ∃ stop : UInt32, stop.toNat = (layout start.toNat s).value.span.stop ∧
        layoutChecked start s = some (layout start.toNat s, stop)
  | .node ⟨a, false⟩ [], start, h => by
    have hlt : start.toNat + width a < UInt32.size := h
    have hwidth := toNat_widthWord (a := a) (by omega)
    obtain ⟨stop, hstop, hadd⟩ := addChecked_eq (x := start) (y := widthWord a) (by omega)
    have hnat : stop.toNat = start.toNat + width a := hwidth ▸ hstop
    refine ⟨stop, hnat, ?_⟩
    rw [layoutChecked, layout]
    simp [hadd, hnat]
  | .node ⟨a, true⟩ [], start, h => by
    have hlt : start.toNat + 1 + width a + 1 < UInt32.size := h
    have hone : (1 : UInt32).toNat = 1 := rfl
    have hwidth := toNat_widthWord (a := a) (by omega)
    obtain ⟨inner, hinner, hadd⟩ := addChecked_eq (x := start) (y := 1) (by omega)
    obtain ⟨after, hafter, hadd'⟩ := addChecked_eq (x := inner) (y := widthWord a) (by omega)
    obtain ⟨stop, hstop, hadd''⟩ := addChecked_eq (x := after) (y := 1) (by omega)
    have hnat : stop.toNat = start.toNat + 1 + width a + 1 := by omega
    refine ⟨stop, hnat, ?_⟩
    rw [layoutChecked, layout]
    simp [hadd, hadd', hadd'', hnat]
  | .node w (c :: cs), start, h => by
    have hlt : (layoutAll (start.toNat + 1) (c :: cs)).2 < UInt32.size := h
    have hle := (layoutAll_nested (c :: cs) (start.toNat + 1)).2.2
    have hone : (1 : UInt32).toNat = 1 := rfl
    obtain ⟨inner, hinner, hadd⟩ := addChecked_eq (x := start) (y := 1) (by omega)
    have hinner : inner.toNat = start.toNat + 1 := hinner
    obtain ⟨stop, hstop, hbelow⟩ := layoutAllChecked_eq (c :: cs) inner (hinner ▸ hlt)
    rw [hinner] at hstop hbelow
    refine ⟨stop, hstop, ?_⟩
    rw [layoutChecked, layout, hadd, Option.bind_some, hbelow, Option.map_some, hstop]

theorem layoutAllChecked_eq : ∀ (cs : List Sketch) (start : UInt32),
    (layoutAll start.toNat cs).2 < UInt32.size →
      ∃ stop : UInt32, stop.toNat = (layoutAll start.toNat cs).2 ∧
        layoutAllChecked start cs = some ((layoutAll start.toNat cs).1, stop)
  | [], start, _ => ⟨start, rfl, rfl⟩
  | c :: cs, start, h => by
    have hlt : (layoutAll ((layout start.toNat c).value.span.stop + 1) cs).2 < UInt32.size := h
    have hle := (layoutAll_nested cs ((layout start.toNat c).value.span.stop + 1)).2.2
    have hone : (1 : UInt32).toNat = 1 := rfl
    obtain ⟨stop, hstop, hfirst⟩ := layoutChecked_eq c start (by omega)
    obtain ⟨next, hnext, hadd⟩ := addChecked_eq (x := stop) (y := 1) (by omega)
    have hnext : next.toNat = (layout start.toNat c).value.span.stop + 1 := by omega
    obtain ⟨last, hlast, hrest⟩ := layoutAllChecked_eq cs next (hnext ▸ hlt)
    rw [hnext] at hlast hrest
    refine ⟨last, hlast, ?_⟩
    rw [layoutAllChecked, hfirst, Option.bind_some, hadd, Option.bind_some, hrest, Option.map_some,
      layoutAll]

end

end Text

namespace Tree

open Text

variable {t : Tree}

/-! ### Parsing -/

theorem placed_finish (t : Tree) (n : Nat) : t.finish.placed n = t.placed n := by
  simp only [placed, subtree_finish, atom_finish, span_finish]

theorem value_placed (t : Tree) (n : Nat) : (t.placed n).value = ⟨t.atom n, t.span n⟩ := by
  rw [placed_eq, Rose.value_node]

/-- A tree that holds a nested layout has nested spans. -/
theorem hasNestedSpans_of_placed (h : Nested (t.placed root)) : t.HasNestedSpans := by
  have hall : ∀ a, Nested (t.placed a) → ∀ n ∈ t.descendants a, Nested (t.placed n) := by
    intro a ha n hn
    induction a using children_induction (t := t) with
    | step a ih =>
      rcases mem_descendants_iff.1 hn with rfl | ⟨c, hc, hn⟩
      · exact ha
      · rw [placed_eq] at ha
        cases ha with
        | node hnonempty hinside hapart hbelow =>
          exact ih c hc (hbelow _ (List.mem_map_of_mem hc)) hn
  have hnode : ∀ n < t.count, Nested (.node ⟨t.atom n, t.span n⟩ ((t.children n).map t.placed)) := by
    intro n hn
    rw [← placed_eq]
    exact hall root h n (mem_descendants_root hn)
  constructor
  · intro n hn
    cases hnode n hn with
    | node hnonempty hinside hapart hbelow => exact hnonempty
  · intro n c hc
    have hp := mem_children.1 hc
    cases hnode n (Nat.lt_trans (lt_of_parent hp) (lt_count_of_parent hp)) with
    | node hnonempty hinside hapart hbelow =>
      have hin := hinside _ (List.mem_map_of_mem hc)
      rwa [value_placed] at hin
  · intro n
    by_cases hn : n < t.count
    · cases hnode n hn with
      | node hnonempty hinside hapart hbelow =>
        rw [List.pairwise_map] at hapart
        simpa only [value_placed] using hapart
    · rw [children_of_count_le (Nat.le_of_not_lt hn)]
      exact List.Pairwise.nil

/-- The tree that a text writes with offsets that are machine words; nothing if an addition overflows. -/
def parseChecked (text : String) : Except ReadError (Option Tree) :=
  (Sketch.read text).map fun s => (layoutChecked 0 s).map fun r => (plant r.1).finish

/-- Every text that is parsed gives a tree with strictly nested spans that end before twice the length of
the text, without overflow if this is at most `2 ^ 31`. So no two nodes have the same span, and every node
is found by its span, with and without its kind. -/
theorem parse_spans {text : String} (hparse : parse text = .ok t) :
    (byteLength text.toList ≤ 2 ^ 31 → parseChecked text = .ok (some t)) ∧
    (t.span root).stop < 2 * byteLength text.toList ∧
    t.HasNestedSpans ∧
    (∀ m < t.count, ∀ n < t.count, t.span m = t.span n → m = n) ∧
    ∀ n < t.count, t.resolve (t.span n) none = some n ∧
      t.resolve (t.span n) (some (t.kind n)) = some n := by
  obtain ⟨s, hread, rfl⟩ := parse_eq_ok_iff.1 hparse
  obtain ⟨d, hvalid, htext, rfl⟩ := read_eq_ok_iff.1 hread
  have hplaced : (plant (layout 0 d.sketch)).finish.placed root = layout 0 d.sketch := by
    rw [placed_finish, placed_plant]
  have hstop : (layout 0 d.sketch).value.span.stop < 2 * byteLength text.toList := by
    have hroot := layout_stop_lt d.root d.trail 0 hvalid.2.1
    rw [← htext, Document.text, byteLength_append, byteLength_append]
    show (layout 0 d.root.sketch).value.span.stop < _
    omega
  have hspan : (plant (layout 0 d.sketch)).finish.span root = (layout 0 d.sketch).value.span :=
    congrArg Placed.span ((value_placed _ _).symm.trans (congrArg Rose.value hplaced))
  have hnested : (plant (layout 0 d.sketch)).finish.HasNestedSpans := by
    apply hasNestedSpans_of_placed
    rw [hplaced]
    exact (layout_nested d.sketch 0).1
  refine ⟨?_, ?_, hnested, fun m hm n hn => hnested.span_injective hm hn, fun n hn => ⟨?_, ?_⟩⟩
  · intro hlength
    have hsize : UInt32.size = 2 ^ 32 := rfl
    have hword : (layout 0 d.sketch).value.span.stop < UInt32.size := by omega
    obtain ⟨stop, -, hchecked⟩ := layoutChecked_eq d.sketch 0 hword
    rw [parseChecked, hread, Except.map, hchecked]
    rfl
  · rw [hspan]
    exact hstop
  · exact hnested.resolve_span hn rfl
  · exact hnested.resolve_span hn (beq_self_eq_true _)

/-- Siblings without anything between them: the layout is longer than the text. -/
def packedText : String :=
  "(A(B)(B)(B)(B)(C:\u00e9))"

def packedSketch : Sketch :=
  .node ⟨⟨"A", none⟩, true⟩ [.node ⟨⟨"B", none⟩, true⟩ [], .node ⟨⟨"B", none⟩, true⟩ [],
    .node ⟨⟨"B", none⟩, true⟩ [], .node ⟨⟨"B", none⟩, true⟩ [], .node ⟨⟨"C", some "\u00e9"⟩, true⟩ []]

theorem packedText_spans : ∃ t, parse packedText = .ok t ∧ parseChecked packedText = .ok (some t) ∧
    byteLength packedText.toList = 21 ∧ (t.span root).stop = 22 ∧ t.HasNestedSpans ∧
    ∀ n < t.count, t.resolve (t.span n) (some (t.kind n)) = some n := by
  have hread : Sketch.read packedText = .ok packedSketch := rfl
  have hparse := parse_eq_ok_iff.2 ⟨packedSketch, hread, rfl⟩
  have hlength : byteLength packedText.toList = 21 := by decide +kernel
  obtain ⟨hchecked, -, hnested, -, hresolve⟩ := parse_spans hparse
  refine ⟨_, hparse, hchecked (by omega), hlength, by decide +kernel, hnested, fun n hn => ?_⟩
  exact (hresolve n hn).2

end Tree

end Counterpart
