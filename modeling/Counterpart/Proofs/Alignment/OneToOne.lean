import Counterpart.Proofs.Alignment.Growth
import Counterpart.Proofs.Tree.Finished

/-!
# Alignments are one-to-one

An alignment is a one-to-one relation between the two subtrees that holds their roots
(`align_oneToOne_within`), for trees in any state. In finished trees all pairs but that of the roots
are of equal kind: equal digests stand for equal terms there, and every other rule asks for the kind.
-/

namespace Counterpart.Alignment

open Counterpart.Tree

variable {config : AlignmentConfig} {t u : Tree} {a b : Nat}

/-- In finished trees the positions of identical subtrees are of equal kind. -/
theorem Identical.kind_eq (ht : t.IsFinished) (hu : u.IsFinished) {l : Link}
    (h : Identical t u l) : t.kind l.1 = u.kind l.2 := by
  obtain ⟨x, y, hdig, hl⟩ := h
  exact kind_eq_of_term_eq (term_eq_of_mem_overlay (ht.term_eq_of_digest_eq hu hdig) hl)

/-- Aligning the subtrees of `a` and `b` gives a one-to-one relation that stays within them and
holds their roots. If the trees are finished, all other pairs are of equal kind. -/
theorem align_oneToOne_within (config : AlignmentConfig) (t u : Tree) (a b : Nat) :
    (align config t u a b).OneToOne ∧
    (∀ x y, (x, y) ∈ (align config t u a b).pairs →
      x ∈ t.descendants a ∧ y ∈ u.descendants b) ∧
    (a, b) ∈ (align config t u a b).pairs ∧
    (t.IsFinished → u.IsFinished → ∀ x y, (x, y) ∈ (align config t u a b).pairs →
      (x, y) ≠ (a, b) → t.kind x = u.kind y) := by
  have hgrows := align_grows config t u a b
  refine ⟨hgrows.oneToOne Matching.oneToOne_empty, fun x y h => linkWithin_of_mem_align h,
    mem_align config t u a b, ?_⟩
  intro ht hu x y hxy hne
  obtain ⟨-, hroot | hid | hkind⟩ := hgrows.forall_mem (x, y) hxy
  · exact absurd hroot hne
  · exact hid.kind_eq ht hu
  · exact hkind

/-- A finished block that holds one name. -/
def blockOf (name : String) : Tree :=
  ((single ⟨Kind.block, none⟩ ⟨0, 3⟩).addChild root ⟨Kind.simpleName, some name⟩ ⟨1, 2⟩).finish

theorem align_renamed_leaf_kind :
    (1, 1) ∈ (align {} (blockOf "x") (blockOf "y") root root).pairs ∧
      (blockOf "x").kind 1 = (blockOf "y").kind 1 := by
  have hmem : (1, 1) ∈ (align {} (blockOf "x") (blockOf "y") root root).pairs := by
    decide +kernel
  have hkinds := (align_oneToOne_within {} (blockOf "x") (blockOf "y") root root).2.2.2
  exact ⟨hmem, hkinds ⟨_, rfl⟩ ⟨_, rfl⟩ 1 1 hmem (by decide)⟩

end Counterpart.Alignment
