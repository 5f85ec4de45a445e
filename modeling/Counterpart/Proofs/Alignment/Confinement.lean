import Counterpart.Alignment.Links
import Counterpart.Proofs.Alignment.Growth

/-!
# Links stay within what they are for

The links that two nodes give rise to lie within the subtrees of these nodes, whether the nodes are
aligned as a whole (`simpleLinks_within`) or by their parts (`compositeLinks_within`).
-/

namespace Counterpart

namespace Tree

variable {t u : Tree}

theorem childOfKind?_mem {n c : Nat} {k : Kind} (h : t.childOfKind? n k = some c) :
    c ∈ t.children n :=
  List.mem_of_find?_eq_some h

theorem childWith?_mem {n c : Nat} {k : Kind} {label : String}
    (h : t.childWith? n k label = some c) : c ∈ t.children n :=
  List.mem_of_find?_eq_some h

/-- Two children that were searched for lie within the two nodes. -/
theorem linkWithin_of_both? {p l : Link} {x y : Option Nat} (h : both? x y = some l)
    (hx : ∀ c, x = some c → c ∈ t.children p.1) (hy : ∀ d, y = some d → d ∈ u.children p.2) :
    LinkWithin t u p l := by
  obtain ⟨c, d⟩ := l
  obtain ⟨hc, hd⟩ := both?_eq_some_iff.1 h
  exact linkWithin_of_children (hx c hc) (hy d hd)

theorem linkWithin_of_childrenOfKind? {p l : Link} {k : Kind}
    (h : childrenOfKind? t u p.1 p.2 k = some l) : LinkWithin t u p l :=
  linkWithin_of_both? h (fun _ => childOfKind?_mem) (fun _ => childOfKind?_mem)

end Tree

namespace Alignment

open Counterpart.Tree

variable {config : AlignmentConfig} {t u : Tree} {a b : Nat} {l : Link}

theorem simpleLinks_within {wholesale : Bool} (h : l ∈ simpleLinks config t u wholesale a b) :
    LinkWithin t u (a, b) l := by
  unfold simpleLinks at h
  split at h
  · exact linkWithin_of_mem_overlay h
  · rcases List.mem_cons.1 h with rfl | h
    · exact .refl t u (a, b)
    · exact linkWithin_of_mem_align h

theorem blockLinks_within (h : l ∈ blockLinks t u a b) : LinkWithin t u (a, b) l := by
  rw [blockLinks, Option.mem_toList] at h
  exact linkWithin_of_childrenOfKind? h

/-! ### Parts -/

/-- Parts are shared out: no part comes up that was not there. -/
theorem pairParts_subset (ss free : List Nat) :
    (∀ l ∈ (pairParts t u ss free).paired, l.1 ∈ ss ∧ l.2 ∈ free) ∧
    (∀ s ∈ (pairParts t u ss free).unpaired, s ∈ ss) ∧
    (∀ d ∈ (pairParts t u ss free).free, d ∈ free) := by
  induction ss generalizing free with
  | nil => simp [pairParts]
  | cons s ss ih =>
    rw [pairParts]
    split
    · next d hfind =>
      obtain ⟨hpaired, hunpaired, hfree⟩ := ih (free.erase d)
      refine ⟨?_, ?_, ?_⟩
      · intro l hl
        rcases List.mem_cons.1 hl with rfl | hl
        · exact ⟨List.mem_cons_self, List.mem_of_find?_eq_some hfind⟩
        · obtain ⟨hl1, hl2⟩ := hpaired l hl
          exact ⟨List.mem_cons_of_mem s hl1, List.mem_of_mem_erase hl2⟩
      · exact fun x hx => List.mem_cons_of_mem s (hunpaired x hx)
      · exact fun x hx => List.mem_of_mem_erase (hfree x hx)
    · obtain ⟨hpaired, hunpaired, hfree⟩ := ih free
      refine ⟨?_, ?_, hfree⟩
      · intro l hl
        obtain ⟨hl1, hl2⟩ := hpaired l hl
        exact ⟨List.mem_cons_of_mem s hl1, hl2⟩
      · intro x hx
        rcases List.mem_cons.1 hx with rfl | hx
        · exact List.mem_cons_self
        · exact List.mem_cons_of_mem s (hunpaired x hx)

theorem partLinks_within {p : Link} (h : l ∈ partLinks config t u p) : LinkWithin t u p l := by
  unfold partLinks at h
  split at h
  · exact linkWithin_of_mem_overlay h
  · exact linkWithin_of_mem_align h

theorem copyLinks?_within {s d : Nat} {links : List Link} (h : copyLinks? t u s d = some links)
    (hl : l ∈ links) : LinkWithin t u (s, d) l := by
  unfold copyLinks? at h
  split at h
  · next x hx =>
    obtain rfl := Option.some.inj h
    have hmem := mem_descendants_of_strict (List.mem_of_find?_eq_some hx)
    have hwithin : LinkWithin t u (s, d) (x, d) := ⟨hmem, self_mem_descendants u d⟩
    exact hwithin.trans (linkWithin_of_mem_overlay hl)
  · obtain ⟨y, hy, rfl⟩ := Option.map_eq_some_iff.1 h
    have hmem := mem_descendants_of_strict (List.mem_of_find?_eq_some hy)
    have hwithin : LinkWithin t u (s, d) (s, y) := ⟨self_mem_descendants t s, hmem⟩
    exact hwithin.trans (linkWithin_of_mem_overlay hl)

theorem linkCopies_within {ss free : List Nat} (h : l ∈ linkCopies t u ss free) :
    ∃ s ∈ ss, ∃ d ∈ free, LinkWithin t u (s, d) l := by
  induction ss generalizing free with
  | nil => simp [linkCopies] at h
  | cons s ss ih =>
    rw [linkCopies] at h
    split at h
    · next d links hfind =>
      obtain ⟨d', hd', hcopy⟩ := List.exists_of_findSome?_eq_some hfind
      obtain ⟨ls, hls, heq⟩ := Option.map_eq_some_iff.1 hcopy
      obtain ⟨rfl, rfl⟩ := Prod.mk.inj heq
      rcases List.mem_append.1 h with h | h
      · exact ⟨s, List.mem_cons_self, d', hd', copyLinks?_within hls h⟩
      · obtain ⟨s', hs', d, hd, hwithin⟩ := ih h
        exact ⟨s', List.mem_cons_of_mem s hs', d, List.mem_of_mem_erase hd, hwithin⟩
    · obtain ⟨s', hs', hrest⟩ := ih h
      exact ⟨s', List.mem_cons_of_mem s hs', hrest⟩

/-- The links of two statements lie within them. -/
theorem compositeLinks_within (h : l ∈ compositeLinks config t u a b) :
    LinkWithin t u (a, b) l := by
  have hchild : ∀ {c d : Nat}, c ∈ ownParts t a → d ∈ ownParts u b → LinkWithin t u (a, b) (c, d) :=
    fun hc hd => linkWithin_of_children (List.mem_filter.1 hc).1 (List.mem_filter.1 hd).1
  obtain ⟨hpaired, hunpaired, hfree⟩ := pairParts_subset (t := t) (u := u) (ownParts t a) (ownParts u b)
  unfold compositeLinks at h
  simp only [List.mem_cons, List.mem_append, List.mem_flatMap] at h
  rcases h with rfl | ((h | h) | ⟨q, hq, h⟩) | h
  · exact .refl t u (a, b)
  · split at h
    · exact blockLinks_within h
    · cases h
  · obtain ⟨hc, hd⟩ := List.of_mem_zip (List.mem_filter.1 h).1
    exact linkWithin_of_children (List.mem_filter.1 hc).1 (List.mem_filter.1 hd).1
  · exact (hchild (hpaired q hq).1 (hpaired q hq).2).trans (partLinks_within h)
  · obtain ⟨s, hs, d, hd, hwithin⟩ := linkCopies_within h
    exact (hchild (hunpaired s hs) (hfree d hd)).trans hwithin

end Alignment

end Counterpart
