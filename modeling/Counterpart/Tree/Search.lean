import Counterpart.Tree.Traversal

/-!
# Finding nodes

`Tree.resolve` finds the node that a range of bytes denotes, going down from the root through the
first child that contains the range. The other searches look at the children of one node. Nothing
found is an answer, not an error: offsets may be stale.
-/

namespace Counterpart

/-- Two values, if both are there. -/
def both? {α β : Type} (x : Option α) (y : Option β) : Option (α × β) :=
  x.bind fun a => y.map fun b => (a, b)

theorem both?_eq_some_iff {α β : Type} {x : Option α} {y : Option β} {a : α} {b : β} :
    both? x y = some (a, b) ↔ x = some a ∧ y = some b := by
  cases x <;> cases y <;> simp [both?]

theorem find?_eq_some_of_unique {α : Type} {xs : List α} {P : α → Bool} {x : α} (hx : x ∈ xs)
    (hP : P x = true) (hunique : ∀ y ∈ xs, P y = true → y = x) : xs.find? P = some x := by
  cases hfind : xs.find? P with
  | none => exact absurd hP (List.find?_eq_none.1 hfind x hx)
  | some y => rw [hunique y (List.mem_of_find?_eq_some hfind) (List.find?_some hfind)]

namespace Tree

variable (t : Tree)

mutual

/-- The way down from the root of `r`, at each node into the first child that contains `range`. -/
def trail (range : Span) : Rose Nat → List Nat
  | .node n cs => n :: trailIn range cs

/-- The way down from the first of the given nodes that contains `range`. -/
def trailIn (range : Span) : List (Rose Nat) → List Nat
  | [] => []
  | c :: cs => if (t.span c.value).contains range then trail range c else trailIn range cs

end

/-- The nodes from the root down to the innermost one that contains `range`. -/
def enclosingNodes (range : Span) : List Nat :=
  if (t.span root).contains range then trail t range (t.subtree root) else []

/-- Whether a node is of the kind asked for; without a hint every kind is. -/
def fitsHint (hint : Option Kind) (n : Nat) : Bool :=
  hint.all fun k => t.kind n == k

/-- The node that `range` denotes: the innermost one with that span, of the kind asked for. If no
span is equal to the range and the kind is an enclosing one, the innermost node of that kind around
the range. -/
def resolve (range : Span) (hint : Option Kind) : Option Nat :=
  let fitting := ((t.enclosingNodes range).filter (t.fitsHint hint)).reverse
  match fitting.find? fun n => t.span n == range with
  | some n => some n
  | none => if hint.any Kind.isEnclosing then fitting.head? else none

/-- The first child of the given kind. -/
def childOfKind? (n : Nat) (k : Kind) : Option Nat :=
  (t.children n).find? fun c => t.kind c == k

/-- The first child of the given kind and label. -/
def childWith? (n : Nat) (k : Kind) (label : String) : Option Nat :=
  (t.children n).find? fun c => t.kind c == k && t.label c == some label

/-- The given nodes up to the first declarator, which is included. -/
def throughDeclarator : List Nat → List Nat
  | [] => []
  | c :: cs =>
    if t.kind c == Kind.variableDeclarationFragment then [c] else c :: throughDeclarator cs

/-- The children of a field declaration up to its first declarator: modifiers and the type stand
before the declarators. -/
def declarationHead (n : Nat) : List Nat :=
  t.throughDeclarator (t.children n)

/-- The first child with the given label, not looking past the first declarator. -/
def headChildLabelled? (n : Nat) (label : String) : Option Nat :=
  (t.declarationHead n).find? fun c => t.label c == some label

/-- The first child of the given kind, not looking past the first declarator. -/
def headChildOfKind? (n : Nat) (k : Kind) : Option Nat :=
  (t.declarationHead n).find? fun c => t.kind c == k

/-- The first children of the given kind of two nodes, if both have one. -/
def childrenOfKind? (t u : Tree) (a b : Nat) (k : Kind) : Option (Nat × Nat) :=
  both? (t.childOfKind? a k) (u.childOfKind? b k)

end Tree

end Counterpart
