import Counterpart.LinkSet

/-!
# Matchings

A `Matching` collects pairs of nodes of two trees and finds the latest partner of a node on either
side. It is one-to-one as long as only free nodes are paired, which `Matching.pair` leaves to its
callers.
-/

namespace Counterpart

/-- Pairs of nodes, with the latest partner of every node. -/
structure Matching where
  /-- The pairs in the order in which they were found. -/
  order : Array Link
  forward : NodeTable (Option Nat)
  backward : NodeTable (Option Nat)

namespace Matching

/-- The matching without pairs. -/
def empty : Matching where
  order := #[]
  forward := .empty
  backward := .empty

/-- The pairs in the order in which they were found. -/
def pairs (m : Matching) : List Link :=
  m.order.toList

/-- The number of pairs. -/
def size (m : Matching) : Nat :=
  m.order.size

/-- Whether there is no pair. -/
def isEmpty (m : Matching) : Bool :=
  m.order.isEmpty

/-- The latest partner of a source node. -/
def target? (m : Matching) (s : Nat) : Option Nat :=
  m.forward.get s

/-- The latest partner of a target node. -/
def source? (m : Matching) (d : Nat) : Option Nat :=
  m.backward.get d

/-- Whether a source node has a partner. -/
def hasSource (m : Matching) (s : Nat) : Bool :=
  (m.target? s).isSome

/-- Whether a target node has a partner. -/
def hasTarget (m : Matching) (d : Nat) : Bool :=
  (m.source? d).isSome

/-- Pair `s` with `d`, whatever their partners were. -/
def pair (m : Matching) (s d : Nat) : Matching where
  order := m.order.push (s, d)
  forward := m.forward.set s (some d)
  backward := m.backward.set d (some s)

@[simp] theorem pairs_empty : empty.pairs = [] := rfl

@[simp] theorem target?_empty (s : Nat) : empty.target? s = none :=
  NodeTable.get_empty s

@[simp] theorem source?_empty (d : Nat) : empty.source? d = none :=
  NodeTable.get_empty d

@[simp] theorem pairs_pair (m : Matching) (s d : Nat) : (m.pair s d).pairs = m.pairs ++ [(s, d)] :=
  Array.toList_push

theorem target?_pair (m : Matching) (s d a : Nat) :
    (m.pair s d).target? a = if a = s then some d else m.target? a :=
  NodeTable.get_set ..

theorem source?_pair (m : Matching) (s d b : Nat) :
    (m.pair s d).source? b = if b = d then some s else m.source? b :=
  NodeTable.get_set ..

end Matching

end Counterpart
