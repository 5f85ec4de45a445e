import Counterpart.HashedTree
import Counterpart.Proofs.Tree.Comparison
import Counterpart.Proofs.Tree.History

/-!
# Stored values as hash words

A tree may store a word of 64 bits in place of a digest: `HashedTree.finish` hashes the atom of each node
followed by the words that its children have at that time. Throughout any history of edits the words are
those of the digests (`HashedTree.Tracks`), also where they are out of date. A hasher that has no collision
among the streams of two finished trees tells their subtrees apart as well as digests do
(`map_term_eq_of_word_eq`). The main statement is `stored_values_exact`.
-/

namespace Counterpart

/-! ### Streams -/

theorem map_word_inj {ps qs : List UInt64} : ps.map Item.word = qs.map Item.word ↔ ps = qs :=
  List.map_inj_right fun _ _ => Item.word.inj

theorem labelItems_append_inj {l m : Option String} {xs ys : List Item}
    (h : labelItems l ++ xs = labelItems m ++ ys) : l = m ∧ xs = ys := by
  cases l <;> cases m <;> simp_all [labelItems]

/-- The atom and the words are told from a stream: the flag says where the words begin. -/
theorem items_append_inj {a b : Atom} {ps qs : List UInt64}
    (h : a.items ++ ps.map Item.word = b.items ++ qs.map Item.word) : a = b ∧ ps = qs := by
  obtain ⟨hkind, htail⟩ := List.cons.inj h
  obtain ⟨hlabel, hwords⟩ := labelItems_append_inj htail
  refine ⟨?_, map_word_inj.1 hwords⟩
  rw [Atom.mk.injEq]
  exact ⟨Item.text.inj hkind, hlabel⟩

/-- From a stream for the shape only the outline of the atom is told; whether there is a label in it
depends on the kind, which comes first. -/
theorem shapeItems_append_inj {a b : Atom} {ps qs : List UInt64}
    (h : a.shapeItems ++ ps.map Item.word = b.shapeItems ++ qs.map Item.word) :
    a.outline = b.outline ∧ ps = qs := by
  obtain ⟨k, l⟩ := a
  obtain ⟨k', l'⟩ := b
  obtain ⟨hkind, htail⟩ := List.cons.inj h
  obtain rfl : k = k' := Item.text.inj hkind
  unfold Atom.outline
  cases hkey : k.isKeyword with
  | true =>
    simp only [hkey, if_true] at htail ⊢
    obtain ⟨rfl, hwords⟩ := labelItems_append_inj htail
    exact ⟨rfl, map_word_inj.1 hwords⟩
  | false =>
    simp only [hkey, Bool.false_eq_true, if_false] at htail ⊢
    exact ⟨trivial, map_word_inj.1 htail⟩

theorem shapeItems_outline (a : Atom) : a.outline.shapeItems = a.shapeItems := by
  obtain ⟨k, l⟩ := a
  unfold Atom.outline Atom.shapeItems
  cases hkey : k.isKeyword <;> simp [hkey]

/-! ### Words of digests -/

/-- The word of a digest: a position without a summary has the word 0. -/
def Digest.word (h : Hasher) (items : Atom → List Item) : Digest → UInt64 :=
  Rose.fold fun a ws => a.elim 0 fun a => h (items a ++ ws.map Item.word)

/-- The words of the digests of a node. -/
def Measures.words (h : Hasher) (m : Measures) : Words where
  hash := m.digest.word h Atom.items
  shape := m.shape.word h Atom.shapeItems

theorem Measures.words_ofChildren (h : Hasher) (a : Atom) (ms : List Measures) :
    (Measures.ofChildren a ms).words h = .ofChildren h a (ms.map (Measures.words h)) := by
  unfold Measures.words Measures.ofChildren Words.ofChildren Digest.word Digest.combine
  simp only [Rose.fold_node, List.map_map, Option.elim_some, shapeItems_outline]
  rfl

/-- The shape of a term is its outline, with every position present. -/
theorem Measures.shape_ofTerm (r : Term) : (Measures.ofTerm r).shape = r.outline.map some := by
  induction r using Rose.ind with
  | node a cs ih =>
    rw [Measures.ofTerm_node, Term.outline, Rose.map_node, Rose.map_node, List.map_map]
    show Digest.combine a.outline _ = Digest.combine a.outline _
    rw [List.map_map]
    exact congrArg _ (List.map_congr_left ih)

/-- The size of a term is the number of positions of its shape. -/
theorem Measures.size_ofTerm (r : Term) : (Measures.ofTerm r).size = (Measures.ofTerm r).shape.size := by
  induction r using Rose.ind with
  | node a cs ih =>
    rw [Measures.ofTerm_node]
    show List.foldr _ 1 _ = Rose.size (Rose.node _ _)
    rw [Rose.size_node, List.map_map, List.map_map, List.map_map]
    exact congrArg _ (List.map_congr_left ih)

/-! ### Trees that store words -/

namespace HashedTree

open Counterpart.Tree (Edit)

variable {h : Hasher} {x y : HashedTree}

def edit (h : Hasher) (x : HashedTree) : Edit → HashedTree
  | .addChild p a s => { x with tree := x.tree.addChild p a s }
  | .finish => x.finish h

/-- The tree that is made from a root by the given edits and then finished. -/
def make (h : Hasher) (a : Atom) (s : Span) (es : List Edit) : HashedTree :=
  (es.foldl (edit h) (single a s)).finish h

/-- The tree was made by edits of which the last one finished it. -/
def IsMade (h : Hasher) (x : HashedTree) : Prop :=
  ∃ a s es, x = make h a s es

/-! ### Words go along with digests -/

/-- At every number the stored words are those of the stored digests. -/
def Tracks (h : Hasher) (x : HashedTree) : Prop :=
  ∀ n, x.words n = (x.tree.measures n).words h

theorem tracks_single (a : Atom) (s : Span) : (single a s).Tracks h := by
  intro n
  by_cases hn : n < (Tree.single a s).count
  · obtain rfl : n = 0 := Nat.lt_one_iff.1 hn
    rfl
  · show Words.unset = ((Tree.single a s).measures n).words h
    rw [Tree.measures, Tree.node_of_count_le (Nat.le_of_not_lt hn)]
    rfl

theorem Tracks.addChild (hx : x.Tracks h) (p : Nat) (a : Atom) (s : Span) :
    (x.edit h (.addChild p a s)).Tracks h := by
  intro n
  show x.words n = ((x.tree.addChild p a s).measures n).words h
  rw [hx n]
  by_cases hp : p < x.tree.count
  · rw [Tree.measures, Tree.measures, Tree.node_addChild hp]
    by_cases hn : n = x.tree.count
    · -- the new node has nothing stored, as its number had before
      rw [if_pos hn, Tree.node_of_count_le (Nat.le_of_eq hn.symm)]
      rfl
    · rw [if_neg hn]
  · rw [Tree.addChild, dif_neg hp]

theorem Tracks.finishNode (hx : x.Tracks h) {n : Nat} (hn : n < x.tree.count) :
    (x.finishNode h n).Tracks h := by
  intro k
  show (if k = n then _ else x.words k) = ((x.tree.finishNode n).measures k).words h
  rw [Tree.finishNode, Tree.measures_setMeasures]
  by_cases hk : k = n
  · subst hk
    rw [if_pos rfl, if_pos ⟨rfl, hn⟩, Measures.words_ofChildren, List.map_map]
    exact congrArg _ (List.map_congr_left fun c _ => hx c)
  · rw [if_neg hk, if_neg fun e => hk e.1.symm, hx k]

theorem tree_foldl_finishNode (h : Hasher) (x : HashedTree) (ns : List Nat) :
    (ns.foldl (finishNode h) x).tree = ns.foldl Tree.finishNode x.tree :=
  (List.foldl_hom HashedTree.tree fun _ _ => rfl).symm

theorem Tracks.foldl_finishNode (hx : x.Tracks h) (ns : List Nat)
    (hns : ∀ n ∈ ns, n < x.tree.count) : (ns.foldl (HashedTree.finishNode h) x).Tracks h := by
  induction ns generalizing x with
  | nil => exact hx
  | cons n ns ih =>
    obtain ⟨hn, hns⟩ := List.forall_mem_cons.1 hns
    refine ih (hx.finishNode hn) fun k hk => ?_
    show k < (x.tree.finishNode n).count
    rw [Tree.finishNode, Tree.count_setMeasures]
    exact hns k hk

theorem tree_finish (h : Hasher) (x : HashedTree) : (x.finish h).tree = x.tree.finish :=
  tree_foldl_finishNode h x _

theorem Tracks.finish (hx : x.Tracks h) : (x.finish h).Tracks h := by
  refine hx.foldl_finishNode _ fun n hn => ?_
  exact Tree.lt_count_of_mem_descendants x.tree.root_lt_count (Rose.mem_postOrder.1 hn)

/-- A whole history keeps the words along with the digests. -/
theorem Tracks.foldl_edit (hx : x.Tracks h) (es : List Edit) : (es.foldl (edit h) x).Tracks h := by
  induction es generalizing x with
  | nil => exact hx
  | cons e es ih =>
    cases e with
    | addChild p a s => exact ih (hx.addChild p a s)
    | finish => exact ih hx.finish

theorem tree_foldl_edit (h : Hasher) (x : HashedTree) (es : List Edit) :
    (es.foldl (edit h) x).tree = es.foldl Tree.edit x.tree := by
  refine (List.foldl_hom HashedTree.tree fun z e => ?_).symm
  cases e with
  | addChild p a s => rfl
  | finish => exact (tree_finish h z).symm

theorem tree_make (h : Hasher) (a : Atom) (s : Span) (es : List Edit) :
    (make h a s es).tree = (es.foldl Tree.edit (.single a s)).finish := by
  rw [make, tree_finish, tree_foldl_edit]
  rfl

theorem tracks_make (a : Atom) (s : Span) (es : List Edit) : (make h a s es).Tracks h :=
  ((tracks_single a s).foldl_edit es).finish

/-- Trees with the same additions in their histories are the same in the end. -/
theorem make_eq {a : Atom} {s : Span} {es es' : List Edit}
    (hes : es.filter Edit.isAddition = es'.filter Edit.isAddition) : make h a s es = make h a s es' := by
  have htree : (make h a s es).tree = (make h a s es').tree := by
    rw [tree_make, tree_make, Tree.finish_foldl_edit hes]
  have hwords : (make h a s es).words = (make h a s es').words := by
    funext n
    rw [tracks_make a s es n, tracks_make a s es' n, htree]
  rw [HashedTree.mk.injEq]
  exact ⟨htree, hwords⟩

/-! ### Telling subtrees apart -/

/-- The stream that is hashed at a node. -/
def stream (x : HashedTree) (n : Nat) : List Item :=
  (x.tree.atom n).items ++ ((x.tree.children n).map fun c => (x.words c).hash).map Item.word

/-- The stream that is hashed for the shape at a node. -/
def shapeStream (x : HashedTree) (n : Nat) : List Item :=
  (x.tree.atom n).shapeItems ++ ((x.tree.children n).map fun c => (x.words c).shape).map Item.word

/-- All streams that finishing a tree feeds to the hasher. -/
def streams (x : HashedTree) : List (List Item) :=
  (List.range x.tree.count).map x.stream ++ (List.range x.tree.count).map x.shapeStream

/-- The hasher has no collision among the streams of two trees. -/
def NoCollision (h : Hasher) (x y : HashedTree) : Prop :=
  ∀ p ∈ x.streams ++ y.streams, ∀ q ∈ x.streams ++ y.streams, h p = h q → p = q

instance (h : Hasher) (x y : HashedTree) : Decidable (NoCollision h x y) :=
  inferInstanceAs (Decidable (∀ p ∈ _, _))

theorem stream_mem {n : Nat} (hn : n < x.tree.count) : x.stream n ∈ x.streams :=
  List.mem_append_left _ (List.mem_map_of_mem (List.mem_range.2 hn))

theorem shapeStream_mem {n : Nat} (hn : n < x.tree.count) : x.shapeStream n ∈ x.streams :=
  List.mem_append_right _ (List.mem_map_of_mem (List.mem_range.2 hn))

/-- Nodes with the same word have the same term in the view that the streams give of atoms, if each word
is hashed from the atom and the words of the children, and no two streams have the same word. -/
theorem map_term_eq_of_word_eq {t u : Tree} {v w : Nat → UInt64} {items : Atom → List Item}
    {view : Atom → Atom}
    (hitems : ∀ {a b : Atom} {ps qs : List UInt64},
      items a ++ ps.map Item.word = items b ++ qs.map Item.word → view a = view b ∧ ps = qs)
    (hinj : ∀ a < t.count, ∀ b < u.count, v a = w b →
      items (t.atom a) ++ ((t.children a).map v).map Item.word =
        items (u.atom b) ++ ((u.children b).map w).map Item.word)
    {a b : Nat} (ha : a < t.count) (hb : b < u.count) (hword : v a = w b) :
    (t.term a).map view = (u.term b).map view := by
  induction a using Tree.children_induction (t := t) generalizing b with
  | step a ih =>
    obtain ⟨hatom, hwords⟩ := hitems (hinj a ha b hb hword)
    obtain ⟨hlen, hpairs⟩ := map_eq_map_iff_zip.1 hwords
    refine Tree.map_term_eq_iff.2 ⟨⟨hatom, hlen⟩, fun l hl => ?_⟩
    obtain ⟨hc, hd⟩ := List.of_mem_zip hl
    exact ih l.1 hc (Tree.lt_count_of_parent (Tree.mem_children.1 hc))
      (Tree.lt_count_of_parent (Tree.mem_children.1 hd)) (hpairs l hl)

theorem and_decide_iff {P Q R : Prop} [Decidable P] [Decidable Q] [Decidable R] (h : R → P ∧ Q) :
    (decide P && decide Q && decide R) = true ↔ R := by
  rw [Bool.and_eq_true, Bool.and_eq_true, decide_eq_true_iff, decide_eq_true_iff, decide_eq_true_iff,
    and_iff_right_of_imp h]

/-- Whether two subtrees have the same kinds and labels: equal words and sizes are asked for first. -/
def isIsomorphic (x : HashedTree) (a : Nat) (y : HashedTree) (b : Nat) : Bool :=
  decide ((x.words a).hash = (y.words b).hash) && decide (x.tree.size a = y.tree.size b) &&
    x.tree.compare y.tree Atom.same [(a, b)]

/-- Whether two subtrees have the same kinds and keywords: equal words and sizes are asked for first. -/
def isSameShape (x : HashedTree) (a : Nat) (y : HashedTree) (b : Nat) : Bool :=
  decide ((x.words a).shape = (y.words b).shape) && decide (x.tree.size a = y.tree.size b) &&
    x.tree.compare y.tree Atom.sameShape [(a, b)]

/-- What holds of a tree after a history that ends with finishing it. -/
structure IsSettled (h : Hasher) (x : HashedTree) : Prop where
  isFinished : x.tree.IsFinished
  tracks : x.Tracks h

theorem IsMade.isSettled (hx : x.IsMade h) : x.IsSettled h := by
  obtain ⟨a, s, es, rfl⟩ := hx
  exact ⟨⟨_, tree_make h a s es⟩, tracks_make a s es⟩

namespace IsSettled

variable {a b : Nat}

/-- The words of a node are hashed from its atom and the words of its children. -/
theorem words_eq (hx : x.IsSettled h) (ha : a < x.tree.count) :
    x.words a = ⟨h (x.stream a), h (x.shapeStream a)⟩ := by
  have hchildren : (x.tree.children a).map x.words =
      (x.tree.children a).map fun c => (x.tree.measures c).words h :=
    List.map_congr_left fun c _ => hx.tracks c
  rw [hx.tracks a, hx.isFinished.measures_eq ha, Measures.words_ofChildren, List.map_map]
  unfold Words.ofChildren stream shapeStream
  rw [show (x.tree.children a).map (Measures.words h ∘ x.tree.measures) = _ from hchildren.symm]
  simp only [List.map_map]
  rfl

theorem measures_eq (hx : x.IsSettled h) (ha : a < x.tree.count) :
    x.tree.measures a = .ofTerm (x.tree.term a) :=
  hx.isFinished.measures_eq_ofTerm ha

/-- Nodes of the same term store the same, whatever the histories of their trees. -/
theorem stored_eq (hx : x.IsSettled h) (hy : y.IsSettled h) (ha : a < x.tree.count)
    (hb : b < y.tree.count) (hterm : x.tree.term a = y.tree.term b) :
    x.tree.measures a = y.tree.measures b ∧ x.words a = y.words b := by
  have hmeasures : x.tree.measures a = y.tree.measures b := by
    rw [hx.measures_eq ha, hy.measures_eq hb, hterm]
  exact ⟨hmeasures, by rw [hx.tracks a, hy.tracks b, hmeasures]⟩

/-- Nodes of the same outline store the same shape. -/
theorem shape_eq (hx : x.IsSettled h) (hy : y.IsSettled h) (ha : a < x.tree.count)
    (hb : b < y.tree.count)
    (houtline : Term.outline (x.tree.term a) = Term.outline (y.tree.term b)) :
    x.tree.shape a = y.tree.shape b ∧ x.tree.size a = y.tree.size b ∧
      (x.words a).shape = (y.words b).shape := by
  have hshape : x.tree.shape a = y.tree.shape b := by
    rw [Tree.shape, Tree.shape, hx.measures_eq ha, hy.measures_eq hb, Measures.shape_ofTerm,
      Measures.shape_ofTerm, houtline]
  refine ⟨hshape, ?_, ?_⟩
  · have hsize := congrArg Rose.size hshape
    rwa [Tree.shape, Tree.shape, hx.measures_eq ha, hy.measures_eq hb, ← Measures.size_ofTerm,
      ← Measures.size_ofTerm, ← hx.measures_eq ha, ← hy.measures_eq hb] at hsize
  · rw [hx.tracks a, hy.tracks b]
    exact congrArg (Digest.word h Atom.shapeItems) hshape

/-- The comparison decides: equal terms have equal words and sizes. -/
theorem isIsomorphic_iff (hx : x.IsSettled h) (hy : y.IsSettled h) (ha : a < x.tree.count)
    (hb : b < y.tree.count) :
    (x.isIsomorphic a y b = true ↔ x.tree.term a = y.tree.term b) ∧
      (x.tree.isIsomorphic a y.tree b = true ↔ x.tree.term a = y.tree.term b) := by
  have hstored := hx.stored_eq hy ha hb
  rw [isIsomorphic, Tree.compare_same]
  refine ⟨and_decide_iff fun hterm => ⟨?_, ?_⟩, hx.isFinished.isIsomorphic_iff hy.isFinished ha hb⟩
  · rw [(hstored hterm).2]
  · exact congrArg Measures.size (hstored hterm).1

theorem isSameShape_iff (hx : x.IsSettled h) (hy : y.IsSettled h) (ha : a < x.tree.count)
    (hb : b < y.tree.count) :
    (x.isSameShape a y b = true ↔ Term.outline (x.tree.term a) = Term.outline (y.tree.term b)) ∧
      (x.tree.isSameShape a y.tree b = true ↔
        Term.outline (x.tree.term a) = Term.outline (y.tree.term b)) := by
  have hstored := hx.shape_eq hy ha hb
  rw [isSameShape, Tree.isSameShape, Tree.compare_sameShape]
  refine ⟨and_decide_iff fun houtline => ⟨?_, ?_⟩, and_decide_iff fun houtline => ⟨?_, ?_⟩⟩
  · exact (hstored houtline).2.2
  · exact (hstored houtline).2.1
  · exact (hstored houtline).1
  · exact (hstored houtline).2.1

/-- Without collisions the words decide as well. -/
theorem hash_eq_iff (hx : x.IsSettled h) (hy : y.IsSettled h) (hxy : NoCollision h x y)
    (ha : a < x.tree.count) (hb : b < y.tree.count) :
    (x.words a).hash = (y.words b).hash ↔ x.tree.term a = y.tree.term b := by
  refine ⟨fun hword => ?_, fun hterm => by rw [(hx.stored_eq hy ha hb hterm).2]⟩
  have hinj : ∀ m < x.tree.count, ∀ n < y.tree.count, (x.words m).hash = (y.words n).hash →
      x.stream m = y.stream n := by
    intro m hm n hn hmn
    rw [hx.words_eq hm, hy.words_eq hn] at hmn
    exact hxy _ (List.mem_append_left _ (stream_mem hm)) _ (List.mem_append_right _ (stream_mem hn)) hmn
  have hterm : (x.tree.term a).map (fun c => c) = (y.tree.term b).map fun c => c :=
    map_term_eq_of_word_eq (v := fun n => (x.words n).hash) (w := fun n => (y.words n).hash)
      items_append_inj hinj ha hb hword
  rwa [Rose.map_same, Rose.map_same] at hterm

theorem shapeHash_eq_iff (hx : x.IsSettled h) (hy : y.IsSettled h) (hxy : NoCollision h x y)
    (ha : a < x.tree.count) (hb : b < y.tree.count) :
    (x.words a).shape = (y.words b).shape ↔
      Term.outline (x.tree.term a) = Term.outline (y.tree.term b) := by
  refine ⟨fun hword => ?_, fun houtline => (hx.shape_eq hy ha hb houtline).2.2⟩
  have hinj : ∀ m < x.tree.count, ∀ n < y.tree.count, (x.words m).shape = (y.words n).shape →
      x.shapeStream m = y.shapeStream n := by
    intro m hm n hn hmn
    rw [hx.words_eq hm, hy.words_eq hn] at hmn
    exact hxy _ (List.mem_append_left _ (shapeStream_mem hm)) _
      (List.mem_append_right _ (shapeStream_mem hn)) hmn
  exact map_term_eq_of_word_eq (v := fun n => (x.words n).shape) (w := fun n => (y.words n).shape)
    shapeItems_append_inj hinj ha hb hword

end IsSettled

/-- After any history that ends with finishing the tree, sizes and heights are those of the subtrees.
If the hasher has no collision among the streams of two such trees, nodes have the same word if and only
if they are isomorphic, which is to have the same term, and the same word for the shape if and only if they
are of the same shape, which is to have the same outline. What is stored depends neither on where the tree
was finished before nor on the order in which nodes were created: it is known by the term. -/
theorem stored_values_exact (h : Hasher) :
    (∀ x : HashedTree, x.IsMade h → ∀ n < x.tree.count,
      x.tree.size n = ((List.range x.tree.count).filter fun m => x.tree.isWithin m n).length ∧
      IsGreatest {k | ∃ ns, x.tree.IsWayDown n ns ∧ k = (n :: ns).length} (x.tree.height n)) ∧
    (∀ x y : HashedTree, x.IsMade h → y.IsMade h → NoCollision h x y →
      ∀ a < x.tree.count, ∀ b < y.tree.count,
        (((x.words a).hash = (y.words b).hash ↔ x.isIsomorphic a y b = true) ∧
          x.isIsomorphic a y b = x.tree.isIsomorphic a y.tree b ∧
          (x.tree.isIsomorphic a y.tree b = true ↔ x.tree.term a = y.tree.term b)) ∧
        ((x.words a).shape = (y.words b).shape ↔ x.isSameShape a y b = true) ∧
          x.isSameShape a y b = x.tree.isSameShape a y.tree b ∧
          (x.tree.isSameShape a y.tree b = true ↔
            Term.outline (x.tree.term a) = Term.outline (y.tree.term b))) ∧
    (∀ (a : Atom) (s : Span) (es es' : List Edit),
      es.filter Edit.isAddition = es'.filter Edit.isAddition → make h a s es = make h a s es') ∧
    ∀ x y : HashedTree, x.IsMade h → y.IsMade h → ∀ a < x.tree.count, ∀ b < y.tree.count,
      x.tree.term a = y.tree.term b →
        x.tree.measures a = y.tree.measures b ∧ x.words a = y.words b := by
  refine ⟨?_, ?_, fun _ _ _ _ hes => make_eq hes, ?_⟩
  · intro x hx n hn
    have hfinished := hx.isSettled.isFinished
    exact ⟨hfinished.size_eq hn, hfinished.isGreatest_height hn⟩
  · intro x y hx hy hxy a ha b hb
    have hx := hx.isSettled
    have hy := hy.isSettled
    obtain ⟨hiso, hiso'⟩ := hx.isIsomorphic_iff hy ha hb
    obtain ⟨hshape, hshape'⟩ := hx.isSameShape_iff hy ha hb
    refine ⟨⟨(hx.hash_eq_iff hy hxy ha hb).trans hiso.symm, ?_, hiso'⟩,
      (hx.shapeHash_eq_iff hy hxy ha hb).trans hshape.symm, ?_, hshape'⟩
    · rw [Bool.eq_iff_iff, hiso, hiso']
    · rw [Bool.eq_iff_iff, hshape, hshape']
  · intro x y hx hy a ha b hb hterm
    exact hx.isSettled.stored_eq hy.isSettled ha hb hterm

/-- A hasher that takes in characters, flags and words one after the other by exclusive or and product. -/
def fnv : Hasher :=
  List.foldl (fun acc i =>
    match i with
    | .text s => s.toList.foldl (fun acc c => (acc ^^^ .ofNat c.toNat) * 1099511628211) acc
    | .flag b => (acc ^^^ if b then 1 else 2) * 1099511628211
    | .word w => (acc ^^^ w) * 1099511628211) 14695981039346656037

/-- A method whose statement is added last, after the tree was finished twice. -/
def bodyLast : List Edit :=
  [.addChild 0 ⟨Kind.block, none⟩ ⟨1, 6⟩, .finish, .addChild 0 ⟨Kind.simpleName, some "run"⟩ ⟨7, 9⟩,
    .finish, .addChild 1 ⟨Kind.returnStatement, none⟩ ⟨2, 5⟩]

/-- A method with the same body and another name, added in pre-order. -/
def bodyFirst : List Edit :=
  [.addChild 0 ⟨Kind.block, none⟩ ⟨1, 6⟩, .addChild 1 ⟨Kind.returnStatement, none⟩ ⟨2, 5⟩,
    .addChild 0 ⟨Kind.simpleName, some "stop"⟩ ⟨7, 9⟩]

def methodOf (es : List Edit) : HashedTree :=
  make fnv ⟨Kind.methodDeclaration, none⟩ ⟨0, 9⟩ es

theorem bodies_stored_values :
    (methodOf bodyLast).tree.size 0 = 4 ∧
    ((methodOf bodyLast).words 1).hash = ((methodOf bodyFirst).words 1).hash ∧
    ((methodOf bodyLast).words 0).shape = ((methodOf bodyFirst).words 0).shape ∧
    ((methodOf bodyLast).words 0).hash ≠ ((methodOf bodyFirst).words 0).hash ∧
    methodOf bodyLast = methodOf (bodyLast.filter Edit.isAddition) := by
  obtain ⟨hsizes, hwords, hhistory, -⟩ := stored_values_exact fnv
  have hlast : (methodOf bodyLast).IsMade fnv := ⟨_, _, _, rfl⟩
  have hfirst : (methodOf bodyFirst).IsMade fnv := ⟨_, _, _, rfl⟩
  have hfree : NoCollision fnv (methodOf bodyLast) (methodOf bodyFirst) := by decide +kernel
  have hwords := hwords _ _ hlast hfirst hfree
  have hbody := hwords 1 (by decide +kernel) 1 (by decide +kernel)
  have hroot := hwords 0 (by decide +kernel) 0 (by decide +kernel)
  refine ⟨?_, ?_, ?_, ?_, hhistory _ _ _ _ (by decide +kernel)⟩
  · rw [(hsizes _ hlast 0 (by decide +kernel)).1]
    decide +kernel
  · rw [hbody.1.1, hbody.1.2.1]
    decide +kernel
  · rw [hroot.2.1, hroot.2.2.1]
    decide +kernel
  · rw [Ne, hroot.1.1, hroot.1.2.1]
    decide +kernel

end HashedTree

end Counterpart
