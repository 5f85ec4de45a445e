/-!
# Ordered trees

`Rose α` is the type of finite ordered trees with a value of `α` at every node. All measures and
walks below are instances of `fold`, so each has one equation at a node, and `Rose.ind` is the
matching induction principle.
-/

namespace Counterpart

/-- A value together with an ordered list of subtrees. -/
inductive Rose (α : Type) where
  | node (value : α) (children : List (Rose α))

namespace Rose

variable {α β γ : Type}

instance [Inhabited α] : Inhabited (Rose α) := ⟨node default []⟩

/-- The value at the root. -/
def value : Rose α → α
  | node a _ => a

/-- The subtrees below the root, in order. -/
def children : Rose α → List (Rose α)
  | node _ cs => cs

@[simp] theorem value_node (a : α) (cs : List (Rose α)) : (node a cs).value = a := rfl

mutual

theorem indNode {motive : Rose α → Prop}
    (h : ∀ a cs, (∀ c ∈ cs, motive c) → motive (node a cs)) : ∀ r, motive r
  | node a cs => h a cs (indList h cs)

theorem indList {motive : Rose α → Prop}
    (h : ∀ a cs, (∀ c ∈ cs, motive c) → motive (node a cs)) :
    ∀ cs : List (Rose α), ∀ c ∈ cs, motive c
  | [], _, hc => absurd hc List.not_mem_nil
  | d :: ds, c, hc => (List.mem_cons.1 hc).elim (fun e => e ▸ indNode h d) (indList h ds c)

end

/-- To prove a property of all trees, prove it at a node whose subtrees all have it. -/
@[elab_as_elim]
theorem ind {motive : Rose α → Prop} (r : Rose α)
    (node : ∀ a cs, (∀ c ∈ cs, motive c) → motive (node a cs)) : motive r :=
  indNode node r

mutual

/-- Replace every node by `f`, applied to its value and to the results of its subtrees. -/
def fold (f : α → List β → β) : Rose α → β
  | node a cs => f a (foldAll f cs)

/-- The results of `fold` for a list of trees. -/
def foldAll (f : α → List β → β) : List (Rose α) → List β
  | [] => []
  | c :: cs => fold f c :: foldAll f cs

end

@[simp] theorem foldAll_eq (f : α → List β → β) (cs : List (Rose α)) :
    foldAll f cs = cs.map (fold f) := by
  induction cs with
  | nil => rfl
  | cons c cs ih => simp [foldAll, ih]

@[simp] theorem fold_node (f : α → List β → β) (a : α) (cs : List (Rose α)) :
    fold f (node a cs) = f a (cs.map (fold f)) := by
  simp [fold]

/-- Apply `f` to every value. -/
def map (f : α → β) : Rose α → Rose β :=
  fold fun a cs => node (f a) cs

@[simp] theorem map_node (f : α → β) (a : α) (cs : List (Rose α)) :
    map f (node a cs) = node (f a) (cs.map (map f)) :=
  fold_node _ a cs

/-- The number of nodes. -/
def size : Rose α → Nat :=
  fold fun _ ns => ns.foldr (· + ·) 1

@[simp] theorem size_node (a : α) (cs : List (Rose α)) :
    size (node a cs) = (cs.map size).foldr (· + ·) 1 :=
  fold_node _ a cs

/-- The number of nodes on a longest way down; a tree without subtrees has height 1. -/
def height : Rose α → Nat :=
  fold fun _ ns => ns.foldl max 0 + 1

@[simp] theorem height_node (a : α) (cs : List (Rose α)) :
    height (node a cs) = (cs.map height).foldl max 0 + 1 :=
  fold_node _ a cs

/-- All values, each before those below it, siblings in order. -/
def preOrder : Rose α → List α :=
  fold fun a ls => a :: ls.flatten

@[simp] theorem preOrder_node (a : α) (cs : List (Rose α)) :
    preOrder (node a cs) = a :: (cs.map preOrder).flatten :=
  fold_node _ a cs

/-- All values, each after those below it, siblings in order. -/
def postOrder : Rose α → List α :=
  fold fun a ls => ls.flatten ++ [a]

@[simp] theorem postOrder_node (a : α) (cs : List (Rose α)) :
    postOrder (node a cs) = (cs.map postOrder).flatten ++ [a] :=
  fold_node _ a cs

/-- All values, each before those below it, siblings from the last to the first. -/
def revPreOrder : Rose α → List α :=
  fold fun a ls => a :: ls.reverse.flatten

@[simp] theorem revPreOrder_node (a : α) (cs : List (Rose α)) :
    revPreOrder (node a cs) = a :: (cs.map revPreOrder).reverse.flatten :=
  fold_node _ a cs

mutual

/-- Overlay two trees: the nodes at the positions which both have. -/
def zip : Rose α → Rose β → Rose (α × β)
  | node a cs, node b ds => node (a, b) (zipAll cs ds)

/-- Overlay two lists of trees, up to the end of the shorter one. -/
def zipAll : List (Rose α) → List (Rose β) → List (Rose (α × β))
  | c :: cs, d :: ds => zip c d :: zipAll cs ds
  | [], _ => []
  | _ :: _, [] => []

end

@[simp] theorem zipAll_eq (cs : List (Rose α)) (ds : List (Rose β)) :
    zipAll cs ds = List.zipWith zip cs ds := by
  induction cs generalizing ds with
  | nil => simp [zipAll]
  | cons c cs ih => cases ds <;> simp [zipAll, ih]

@[simp] theorem zip_node (a : α) (b : β) (cs : List (Rose α)) (ds : List (Rose β)) :
    zip (node a cs) (node b ds) = node (a, b) (List.zipWith zip cs ds) := by
  simp [zip]

mutual

/-- Equality of trees is decided node by node. -/
def decEq [DecidableEq α] : (r s : Rose α) → Decidable (r = s)
  | node a cs, node b ds =>
    if h : a = b then
      match decEqAll cs ds with
      | isTrue h' => isTrue (h ▸ h' ▸ rfl)
      | isFalse h' => isFalse fun e => h' (node.inj e).2
    else isFalse fun e => h (node.inj e).1

/-- Equality of lists of trees is decided element by element. -/
def decEqAll [DecidableEq α] : (cs ds : List (Rose α)) → Decidable (cs = ds)
  | [], [] => isTrue rfl
  | [], _ :: _ => isFalse nofun
  | _ :: _, [] => isFalse nofun
  | c :: cs, d :: ds =>
    match decEq c d with
    | isTrue h =>
      match decEqAll cs ds with
      | isTrue h' => isTrue (h ▸ h' ▸ rfl)
      | isFalse h' => isFalse fun e => h' (List.cons.inj e).2
    | isFalse h => isFalse fun e => h (List.cons.inj e).1

end

instance [DecidableEq α] : DecidableEq (Rose α) := decEq

end Rose

end Counterpart
