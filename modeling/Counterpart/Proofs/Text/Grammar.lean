import Counterpart.Proofs.Text.Reading

/-!
# The grammar of the text form

A `Document` is a derivation: it keeps every choice that a writer has, namely the separators between
nodes, whether a node without children stands in parentheses, whether a label stands in quotes, and which
characters in it have a backslash. `Document.text` is the text that it derives and `Document.sketch` the
tree. Kinds and labels without quotes have to be the longest runs, so whether a form may be used depends
on what follows it (`Fits`). The main statement is that a text has at most one derivation
(`Document.text_injective`).
-/

namespace Counterpart.Text

/-- Whether a character may stand in a label without quotes. -/
def isLabelChar (c : Char) : Bool :=
  !(isSeparator c || isParen c)

/-- The text does not begin with a character of the class: a run of the class that ends here is as long
as possible. -/
def StopsAt (p : Char → Bool) : List Char → Prop
  | [] => True
  | c :: _ => p c = false

instance (p : Char → Bool) (rest : List Char) : Decidable (StopsAt p rest) :=
  match rest with
  | [] => isTrue trivial
  | c :: _ => inferInstanceAs (Decidable (p c = false))

/-- The text consists of separators. -/
def IsGap (cs : List Char) : Prop :=
  ∀ c ∈ cs, isSeparator c = true

instance (cs : List Char) : Decidable (IsGap cs) :=
  List.decidableBAll (fun c => isSeparator c = true) cs

/-! ### Forms -/

/-- A character between quotes, with a backslash before it or without. -/
structure QuotedChar where
  escaped : Bool
  char : Char
  deriving DecidableEq

namespace QuotedChar

def text (q : QuotedChar) : List Char :=
  if q.escaped then ['\\', q.char] else [q.char]

/-- Quotes and backslashes need a backslash; any other character may have one. -/
def Fits (q : QuotedChar) : Prop :=
  q.escaped = true ∨ q.char ≠ '"' ∧ q.char ≠ '\\'

instance (q : QuotedChar) : Decidable q.Fits :=
  inferInstanceAs (Decidable (_ ∨ _))

end QuotedChar

/-- The two ways to write a label. -/
inductive LabelForm where
  | run (chars : List Char)
  | quoted (chars : List QuotedChar)
  deriving DecidableEq

namespace LabelForm

def text : LabelForm → List Char
  | run cs => cs
  | quoted qs => '"' :: (qs.flatMap QuotedChar.text ++ ['"'])

/-- The label that is written: a run is taken literally, and so is each character between quotes. -/
def value : LabelForm → String
  | run cs => String.ofList cs
  | quoted qs => String.ofList (qs.map QuotedChar.char)

/-- With `rest` after it, the form is read as it was meant. -/
def Fits (rest : List Char) : LabelForm → Prop
  | run cs => (∀ c ∈ cs, isLabelChar c = true) ∧ cs.head? ≠ some '"' ∧ StopsAt isLabelChar rest
  | quoted qs => ∀ q ∈ qs, q.Fits

instance (rest : List Char) (l : LabelForm) : Decidable (l.Fits rest) :=
  match l with
  | run cs =>
    have := List.decidableBAll (fun c => isLabelChar c = true) cs
    inferInstanceAs (Decidable ((∀ c ∈ cs, isLabelChar c = true) ∧ _ ∧ _))
  | quoted qs => List.decidableBAll QuotedChar.Fits qs

end LabelForm

/-- A kind, followed by nothing or by a colon and a label. -/
structure AtomForm where
  kind : Kind
  label : Option LabelForm
  deriving DecidableEq

namespace AtomForm

def text (a : AtomForm) : List Char :=
  a.kind.toList ++
    match a.label with
    | none => []
    | some l => ':' :: l.text

def atom (a : AtomForm) : Atom :=
  ⟨a.kind, a.label.map LabelForm.value⟩

/-- A kind alone is the longest run; after a colon all is up to the label. -/
def Fits (rest : List Char) (a : AtomForm) : Prop :=
  IsWord a.kind ∧
    match a.label with
    | none => StopsAt isWordChar rest
    | some l => l.Fits rest

instance (rest : List Char) (a : AtomForm) : Decidable (a.Fits rest) :=
  match a with
  | ⟨_, none⟩ => inferInstanceAs (Decidable (_ ∧ _))
  | ⟨_, some _⟩ => inferInstanceAs (Decidable (_ ∧ _))

end AtomForm

mutual

/-- The ways to write a node: an atom, or a group of an opening parenthesis, separators, an atom and what
comes after it. -/
inductive NodeForm where
  | bare (atom : AtomForm)
  | group (lead : List Char) (head : AtomForm) (tail : GroupTail)

/-- What comes after the head of a group: separators and the closing parenthesis, or separators, a child
and what comes after it. -/
inductive GroupTail where
  | close (gap : List Char)
  | child (gap : List Char) (node : NodeForm) (tail : GroupTail)

end

mutual

def NodeForm.text : NodeForm → List Char
  | .bare a => a.text
  | .group lead head tail => '(' :: (lead ++ (head.text ++ tail.text))

def GroupTail.text : GroupTail → List Char
  | .close gap => gap ++ [')']
  | .child gap node tail => gap ++ (node.text ++ tail.text)

end

mutual

/-- The tree that is written. -/
def NodeForm.sketch : NodeForm → Sketch
  | .bare a => .node ⟨a.atom, false⟩ []
  | .group _ head tail => .node ⟨head.atom, true⟩ tail.sketches

/-- The children that are written, in order. -/
def GroupTail.sketches : GroupTail → List Sketch
  | .close _ => []
  | .child _ node tail => node.sketch :: tail.sketches

end

mutual

/-- With `rest` after it, the form is read as it was meant. -/
def NodeForm.Fits (rest : List Char) : NodeForm → Prop
  | .bare a => a.Fits rest
  | .group lead head tail => IsGap lead ∧ head.Fits (tail.text ++ rest) ∧ tail.Fits rest

def GroupTail.Fits (rest : List Char) : GroupTail → Prop
  | .close gap => IsGap gap
  | .child gap node tail => IsGap gap ∧ node.Fits (tail.text ++ rest) ∧ tail.Fits rest

end

mutual

def NodeForm.decFits (rest : List Char) : (f : NodeForm) → Decidable (f.Fits rest)
  | .bare a => inferInstanceAs (Decidable (a.Fits rest))
  | .group lead head tail =>
    have := tail.decFits rest
    inferInstanceAs (Decidable (IsGap lead ∧ head.Fits (tail.text ++ rest) ∧ tail.Fits rest))

def GroupTail.decFits (rest : List Char) : (g : GroupTail) → Decidable (g.Fits rest)
  | .close gap => inferInstanceAs (Decidable (IsGap gap))
  | .child gap node tail =>
    have := node.decFits (tail.text ++ rest)
    have := tail.decFits rest
    inferInstanceAs (Decidable (IsGap gap ∧ node.Fits (tail.text ++ rest) ∧ tail.Fits rest))

end

instance (rest : List Char) (f : NodeForm) : Decidable (f.Fits rest) := f.decFits rest

/-- A root with separators before and after it. -/
structure Document where
  lead : List Char
  root : NodeForm
  trail : List Char

namespace Document

def text (d : Document) : List Char :=
  d.lead ++ (d.root.text ++ d.trail)

def sketch (d : Document) : Sketch :=
  d.root.sketch

/-- The derivation follows the rules of the grammar. -/
def IsValid (d : Document) : Prop :=
  IsGap d.lead ∧ d.root.Fits d.trail ∧ IsGap d.trail

instance (d : Document) : Decidable d.IsValid :=
  inferInstanceAs (Decidable (_ ∧ _ ∧ _))

end Document

/-! ### Runs -/

/-- The longest run of a class at the beginning of a text is determined by the text. -/
theorem run_append_inj {p : Char → Bool} {xs ys rest rest' : List Char}
    (hxs : ∀ c ∈ xs, p c = true) (hys : ∀ c ∈ ys, p c = true) (hrest : StopsAt p rest)
    (hrest' : StopsAt p rest') (h : xs ++ rest = ys ++ rest') : xs = ys ∧ rest = rest' := by
  induction xs generalizing ys with
  | nil =>
    cases ys with
    | nil => exact ⟨rfl, h⟩
    | cons y ys =>
      have hy : p y = true := hys y List.mem_cons_self
      rw [List.nil_append] at h
      subst h
      have hstop : p y = false := hrest
      rw [hy] at hstop; cases hstop
  | cons x xs ih =>
    have hx : p x = true := hxs x List.mem_cons_self
    cases ys with
    | nil =>
      rw [List.nil_append] at h
      subst h
      have hstop : p x = false := hrest'
      rw [hx] at hstop; cases hstop
    | cons y ys =>
      rw [List.cons_append, List.cons_append, List.cons.injEq] at h
      obtain ⟨rfl, h⟩ := h
      obtain ⟨rfl, hrests⟩ := ih (fun c hc => hxs c (List.mem_cons_of_mem _ hc))
        (fun c hc => hys c (List.mem_cons_of_mem _ hc)) h
      exact ⟨rfl, hrests⟩

/-! ### Atoms -/

namespace QuotedChar

variable {q r : QuotedChar} {xs ys : List Char}

theorem text_plain {q : QuotedChar} (h : q.escaped = false) : q.text = [q.char] := by
  rw [text, h]
  rfl

theorem text_escaped {q : QuotedChar} (h : q.escaped = true) : q.text = ['\\', q.char] := by
  rw [text, h]
  rfl

/-- No character between quotes is mistaken for the closing quote. -/
theorem Fits.quote_ne (h : q.Fits) : '"' :: ys ≠ q.text ++ xs := by
  intro heq
  rcases h with hesc | ⟨hquote, -⟩
  · rw [text_escaped hesc] at heq
    exact absurd (List.cons.inj heq).1 (by decide)
  · cases hesc : q.escaped with
    | true =>
      rw [text_escaped hesc] at heq
      exact absurd (List.cons.inj heq).1 (by decide)
    | false =>
      rw [text_plain hesc] at heq
      exact hquote (List.cons.inj heq).1.symm

theorem text_append_inj (hq : q.Fits) (hr : r.Fits) (h : q.text ++ xs = r.text ++ ys) :
    q = r ∧ xs = ys := by
  -- a plain character is no backslash
  have hplain : ∀ {x : QuotedChar}, x.Fits → x.escaped = false → x.char ≠ '\\' := by
    intro x hx hesc
    rcases hx with hx | ⟨-, hx⟩
    · rw [hesc] at hx; cases hx
    · exact hx
  obtain ⟨e, c⟩ := q
  obtain ⟨e', c'⟩ := r
  cases e with
  | false =>
    cases e' with
    | false =>
      obtain ⟨rfl, hafter⟩ := List.cons.inj h
      exact ⟨rfl, hafter⟩
    | true => exact absurd (List.cons.inj h).1 (hplain hq rfl)
  | true =>
    cases e' with
    | false => exact absurd (List.cons.inj h).1.symm (hplain hr rfl)
    | true =>
      obtain ⟨rfl, hafter⟩ := List.cons.inj (List.cons.inj h).2
      exact ⟨rfl, hafter⟩

end QuotedChar

/-- The characters between quotes are determined by the text. -/
theorem quoted_append_inj {qs rs : List QuotedChar} {rest rest' : List Char}
    (hqs : ∀ q ∈ qs, q.Fits) (hrs : ∀ q ∈ rs, q.Fits)
    (h : qs.flatMap QuotedChar.text ++ '"' :: rest = rs.flatMap QuotedChar.text ++ '"' :: rest') :
    qs = rs ∧ rest = rest' := by
  induction qs generalizing rs with
  | nil =>
    cases rs with
    | nil => exact ⟨rfl, (List.cons.inj h).2⟩
    | cons r rs =>
      rw [List.flatMap_nil, List.nil_append, List.flatMap_cons, List.append_assoc] at h
      exact absurd h (hrs r List.mem_cons_self).quote_ne
  | cons q qs ih =>
    cases rs with
    | nil =>
      rw [List.flatMap_nil, List.nil_append, List.flatMap_cons, List.append_assoc] at h
      exact absurd h.symm (hqs q List.mem_cons_self).quote_ne
    | cons r rs =>
      obtain ⟨hq, hmore⟩ := List.forall_mem_cons.1 hqs
      obtain ⟨hr, hmore'⟩ := List.forall_mem_cons.1 hrs
      rw [List.flatMap_cons, List.flatMap_cons, List.append_assoc, List.append_assoc] at h
      obtain ⟨rfl, hafter⟩ := QuotedChar.text_append_inj hq hr h
      obtain ⟨rfl, hrests⟩ := ih hmore hmore' hafter
      exact ⟨rfl, hrests⟩

namespace LabelForm

variable {rest rest' : List Char}

theorem text_quoted_append (qs : List QuotedChar) (rest : List Char) :
    (quoted qs).text ++ rest = '"' :: (qs.flatMap QuotedChar.text ++ '"' :: rest) := by
  rw [text, List.cons_append, List.append_assoc]
  rfl

/-- A run is not mistaken for a quoted label: a quote could only come after it, where it would make the
run longer. -/
theorem run_ne_quote {cs ds : List Char} (h : (run cs).Fits rest) : cs ++ rest ≠ '"' :: ds := by
  obtain ⟨-, hquote, hstop⟩ := h
  intro heq
  cases cs with
  | nil =>
    rw [List.nil_append] at heq
    subst heq
    have hlabel : isLabelChar '"' = false := hstop
    exact absurd hlabel (by decide)
  | cons c cs =>
    rw [List.cons_append, List.cons.injEq] at heq
    exact hquote (by rw [heq.1]; rfl)

theorem text_append_inj {l m : LabelForm} (hl : l.Fits rest) (hm : m.Fits rest')
    (h : l.text ++ rest = m.text ++ rest') : l = m ∧ rest = rest' := by
  cases l with
  | run cs =>
    cases m with
    | run ds =>
      obtain ⟨rfl, hrests⟩ := run_append_inj hl.1 hm.1 hl.2.2 hm.2.2 h
      exact ⟨rfl, hrests⟩
    | quoted rs => exact absurd (h.trans (text_quoted_append rs rest')) (run_ne_quote hl)
  | quoted qs =>
    rw [text_quoted_append] at h
    cases m with
    | run ds => exact absurd h.symm (run_ne_quote hm)
    | quoted rs =>
      rw [text_quoted_append] at h
      obtain ⟨rfl, hrests⟩ := quoted_append_inj hl hm (List.cons.inj h).2
      exact ⟨rfl, hrests⟩

end LabelForm

namespace AtomForm

variable {a b : AtomForm} {rest rest' : List Char}

theorem text_append (a : AtomForm) (rest : List Char) : a.text ++ rest = a.kind.toList ++
    match a.label with
    | none => rest
    | some l => ':' :: (l.text ++ rest) := by
  rw [text, List.append_assoc]
  cases a.label <;> rfl

/-- An atom begins with a character of its kind. -/
theorem exists_cons_text (h : IsWord a.kind) : ∃ c cs, isWordChar c = true ∧ a.text = c :: cs := by
  obtain ⟨hne, hword⟩ := h
  cases hkind : a.kind.toList with
  | nil => exact absurd hkind hne
  | cons c cs =>
    rw [hkind] at hword
    rw [text, hkind, List.cons_append]
    exact ⟨c, _, hword c List.mem_cons_self, rfl⟩

/-- What follows a kind, be it a colon or what comes after the atom, is no part of it. -/
theorem stopsAt_after_kind (h : a.Fits rest) : StopsAt isWordChar
    (match a.label with
    | none => rest
    | some l => ':' :: (l.text ++ rest)) := by
  obtain ⟨k, label⟩ := a
  cases label with
  | none => exact h.2
  | some l => exact (by decide : isWordChar ':' = false)

/-- An atom is determined by the text, unless a colon follows: after a kind it would be the beginning of a
label. -/
theorem text_append_inj (ha : a.Fits rest) (hb : b.Fits rest') (hrest : StopsAt (· == ':') rest)
    (hrest' : StopsAt (· == ':') rest') (h : a.text ++ rest = b.text ++ rest') :
    a = b ∧ rest = rest' := by
  have hcolon : ∀ {cs ds : List Char}, StopsAt (· == ':') cs → cs ≠ ':' :: ds := by
    rintro cs ds hstop rfl
    have hne : (':' == ':') = false := hstop
    exact absurd hne (by decide)
  rw [text_append, text_append] at h
  obtain ⟨hkind, h⟩ := run_append_inj ha.1.2 hb.1.2 (stopsAt_after_kind ha) (stopsAt_after_kind hb) h
  obtain ⟨k, label⟩ := a
  obtain ⟨k', label'⟩ := b
  obtain rfl : k = k' := String.toList_inj.1 hkind
  cases label with
  | none =>
    cases label' with
    | none => exact ⟨rfl, h⟩
    | some m => exact absurd h (hcolon hrest)
  | some l =>
    cases label' with
    | none => exact absurd h.symm (hcolon hrest')
    | some m =>
      obtain ⟨rfl, hrests⟩ := LabelForm.text_append_inj ha.2 hb.2 (List.cons.inj h).2
      exact ⟨rfl, hrests⟩

end AtomForm

/-! ### Nodes -/

/-- A node begins with a parenthesis or with a character of a kind. -/
theorem NodeForm.Fits.exists_cons_text {f : NodeForm} {rest : List Char} (h : f.Fits rest) :
    ∃ c cs, (c = '(' ∨ isWordChar c = true) ∧ f.text = c :: cs := by
  cases f with
  | bare a =>
    obtain ⟨c, cs, hc, htext⟩ := AtomForm.exists_cons_text h.1
    exact ⟨c, cs, .inr hc, htext⟩
  | group lead head tail => exact ⟨'(', _, .inl rfl, by rw [NodeForm.text]⟩

/-- So it begins with no separator, no colon and no closing parenthesis. -/
theorem ne_of_node_start {c : Char} (h : c = '(' ∨ isWordChar c = true) :
    isSeparator c = false ∧ c ≠ ':' ∧ c ≠ ')' := by
  rcases h with rfl | hc
  · decide
  · obtain ⟨hsep, -, hclose, hcolon⟩ := isWordChar_iff.1 hc
    exact ⟨hsep, hcolon, hclose⟩

theorem AtomForm.Fits.stopsAt_separator {a : AtomForm} {rest : List Char} (h : a.Fits rest) :
    StopsAt isSeparator (a.text ++ rest) := by
  obtain ⟨c, cs, hc, htext⟩ := AtomForm.exists_cons_text h.1
  rw [htext]
  exact (isWordChar_iff.1 hc).1

theorem NodeForm.Fits.stopsAt_separator {f : NodeForm} {rest : List Char} (h : f.Fits rest) :
    StopsAt isSeparator (f.text ++ rest) := by
  obtain ⟨c, cs, hc, htext⟩ := h.exists_cons_text
  rw [htext]
  exact (ne_of_node_start hc).1

/-- Separators are no colons. -/
theorem IsGap.stopsAt_colon {gap rest : List Char} (hgap : IsGap gap)
    (hrest : StopsAt (· == ':') rest) : StopsAt (· == ':') (gap ++ rest) := by
  cases gap with
  | nil => exact hrest
  | cons c cs =>
    have hsep : isSeparator c = true := hgap c List.mem_cons_self
    show (c == ':') = false
    refine beq_eq_false_iff_ne.2 ?_
    rintro rfl
    exact absurd hsep (by decide)

/-- Inside a group no colon follows an atom. -/
theorem GroupTail.Fits.stopsAt_colon {g : GroupTail} {rest : List Char} (h : g.Fits rest) :
    StopsAt (· == ':') (g.text ++ rest) := by
  cases g with
  | close gap =>
    have hclose : StopsAt (· == ':') (')' :: rest) := (by decide : (')' == ':') = false)
    rw [GroupTail.text, List.append_assoc]
    exact IsGap.stopsAt_colon h hclose
  | child gap node tail =>
    obtain ⟨hgap, hnode, -⟩ := h
    obtain ⟨c, cs, hc, htext⟩ := hnode.exists_cons_text
    rw [GroupTail.text, List.append_assoc, htext]
    exact hgap.stopsAt_colon (beq_eq_false_iff_ne.2 (ne_of_node_start hc).2.1)

/-- What comes after the head of a group begins, after separators, with the closing parenthesis or with a
child, and not with both. -/
theorem close_ne_child {gap gap' cs rest : List Char} {node : NodeForm} (hgap : IsGap gap)
    (hgap' : IsGap gap') (hnode : node.Fits cs) : gap ++ ')' :: rest ≠ gap' ++ (node.text ++ cs) := by
  intro h
  obtain ⟨-, hafter⟩ := run_append_inj hgap hgap' (by exact (rfl : isSeparator ')' = false))
    hnode.stopsAt_separator h
  obtain ⟨c, ds, hc, htext⟩ := hnode.exists_cons_text
  rw [htext] at hafter
  exact (ne_of_node_start hc).2.2 (List.cons.inj hafter).1.symm

mutual

/-- A node is determined by the text, unless a colon follows. -/
theorem NodeForm.text_append_inj : ∀ (f g : NodeForm) (rest rest' : List Char), f.Fits rest →
    g.Fits rest' → StopsAt (· == ':') rest → StopsAt (· == ':') rest' →
    f.text ++ rest = g.text ++ rest' → f = g ∧ rest = rest'
  | .bare a, .bare b, rest, rest', hf, hg, hrest, hrest', h => by
    obtain ⟨rfl, hrests⟩ := AtomForm.text_append_inj hf hg hrest hrest' h
    exact ⟨rfl, hrests⟩
  | .bare a, .group lead head tail, rest, rest', hf, _, _, _, h => by
    obtain ⟨c, cs, hc, htext⟩ := AtomForm.exists_cons_text hf.1
    rw [NodeForm.text, NodeForm.text, htext] at h
    obtain rfl : c = '(' := (List.cons.inj h).1
    exact absurd hc (by decide)
  | .group lead head tail, .bare b, rest, rest', _, hg, _, _, h => by
    obtain ⟨c, cs, hc, htext⟩ := AtomForm.exists_cons_text hg.1
    rw [NodeForm.text, NodeForm.text, htext] at h
    obtain rfl : '(' = c := (List.cons.inj h).1
    exact absurd hc (by decide)
  | .group lead head tail, .group lead' head' tail', rest, rest', hf, hg, _, _, h => by
    obtain ⟨hlead, hhead, htail⟩ := hf
    obtain ⟨hlead', hhead', htail'⟩ := hg
    -- after the opening parenthesis: separators, the head, and what comes after it
    have hopened : lead ++ (head.text ++ (tail.text ++ rest)) =
        lead' ++ (head'.text ++ (tail'.text ++ rest')) := by
      simpa [NodeForm.text] using h
    obtain ⟨rfl, hheads⟩ :=
      run_append_inj hlead hlead' hhead.stopsAt_separator hhead'.stopsAt_separator hopened
    obtain ⟨rfl, htails⟩ :=
      AtomForm.text_append_inj hhead hhead' htail.stopsAt_colon htail'.stopsAt_colon hheads
    obtain ⟨rfl, hrests⟩ := GroupTail.text_append_inj tail tail' rest rest' htail htail' htails
    exact ⟨rfl, hrests⟩

theorem GroupTail.text_append_inj : ∀ (g g' : GroupTail) (rest rest' : List Char), g.Fits rest →
    g'.Fits rest' → g.text ++ rest = g'.text ++ rest' → g = g' ∧ rest = rest'
  | .close gap, .close gap', rest, rest', hg, hg', h => by
    have hclose : ∀ cs, StopsAt isSeparator ([')'] ++ cs) := fun _ => (rfl : isSeparator ')' = false)
    rw [GroupTail.text, GroupTail.text, List.append_assoc, List.append_assoc] at h
    obtain ⟨rfl, hrests⟩ := run_append_inj hg hg' (hclose rest) (hclose rest') h
    exact ⟨rfl, (List.cons.inj hrests).2⟩
  | .close gap, .child gap' node' tail', rest, rest', hg, hg', h => by
    obtain ⟨hgap', hnode', -⟩ := hg'
    simp only [GroupTail.text, List.append_assoc, List.singleton_append] at h
    exact absurd h (close_ne_child hg hgap' hnode')
  | .child gap node tail, .close gap', rest, rest', hg, hg', h => by
    obtain ⟨hgap, hnode, -⟩ := hg
    simp only [GroupTail.text, List.append_assoc, List.singleton_append] at h
    exact absurd h.symm (close_ne_child hg' hgap hnode)
  | .child gap node tail, .child gap' node' tail', rest, rest', hg, hg', h => by
    obtain ⟨hgap, hnode, htail⟩ := hg
    obtain ⟨hgap', hnode', htail'⟩ := hg'
    have hgaps : gap ++ (node.text ++ (tail.text ++ rest)) =
        gap' ++ (node'.text ++ (tail'.text ++ rest')) := by
      simpa [GroupTail.text] using h
    obtain ⟨rfl, hnodes⟩ :=
      run_append_inj hgap hgap' hnode.stopsAt_separator hnode'.stopsAt_separator hgaps
    obtain ⟨rfl, htails⟩ := NodeForm.text_append_inj node node' _ _ hnode hnode' htail.stopsAt_colon
      htail'.stopsAt_colon hnodes
    obtain ⟨rfl, hrests⟩ := GroupTail.text_append_inj tail tail' rest rest' htail htail' htails
    exact ⟨rfl, hrests⟩

end

namespace Document

variable {d e : Document}

theorem IsValid.stopsAt_colon (h : d.IsValid) : StopsAt (· == ':') d.trail := by
  have htrail : StopsAt (· == ':') (d.trail ++ []) := IsGap.stopsAt_colon h.2.2 trivial
  rwa [List.append_nil] at htrail

/-- A text has at most one derivation. -/
theorem text_injective (hd : d.IsValid) (he : e.IsValid) (h : d.text = e.text) : d = e := by
  have htrail := hd.stopsAt_colon
  have htrail' := he.stopsAt_colon
  obtain ⟨lead, root, trail⟩ := d
  obtain ⟨lead', root', trail'⟩ := e
  obtain ⟨hlead, hroot, -⟩ := hd
  obtain ⟨hlead', hroot', -⟩ := he
  obtain ⟨rfl, hroots⟩ :=
    run_append_inj hlead hlead' hroot.stopsAt_separator hroot'.stopsAt_separator h
  obtain ⟨rfl, rfl⟩ :=
    NodeForm.text_append_inj root root' trail trail' hroot hroot' htrail htrail' hroots
  rfl

end Document

end Counterpart.Text
