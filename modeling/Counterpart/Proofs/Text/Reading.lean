import Counterpart.Text.Printer
import Counterpart.Text.Reader

/-!
# Reading what was written

A node that ends in a bare kind or label is complete only when the next character shows it. So what has
been read is described by the pause that it leads to, `State.Reaches`: at the end of the text, before a
separator and before a parenthesis, the state cannot be told from that pause. Reading the written form of
a term leads to the pause in which the term has been put in its place (`reaches_write`), provided that its
kinds are words. Conversely all kinds that are ever read are words (`hasWords_of_read`).
-/

namespace Counterpart

/-- A member of a tree is its root or a member of one of its subtrees. -/
theorem Rose.mem_preOrder_node {α : Type} {x a : α} {cs : List (Rose α)} :
    x ∈ (node a cs).preOrder ↔ x = a ∨ ∃ c ∈ cs, x ∈ c.preOrder := by
  simp only [preOrder_node, List.mem_cons, List.mem_flatten, List.mem_map]
  refine or_congr_right ⟨?_, ?_⟩
  · rintro ⟨_, ⟨c, hc, rfl⟩, hx⟩
    exact ⟨c, hc, hx⟩
  · rintro ⟨c, hc, hx⟩
    exact ⟨_, ⟨c, hc, rfl⟩, hx⟩

namespace Text

/-! ### Words -/

/-- Whether a character may stand in a kind. -/
def isWordChar (c : Char) : Bool :=
  !(isSeparator c || isParen c || c == ':')

/-- A kind that can be read back: it is not empty, and no character in it ends it. -/
def IsWord (k : Kind) : Prop :=
  k.toList ≠ [] ∧ ∀ c ∈ k.toList, isWordChar c = true

instance (k : Kind) : Decidable (IsWord k) :=
  decidable_of_iff (k.toList ≠ [] ∧ k.toList.all isWordChar = true) (and_congr_right fun _ => List.all_eq_true)

/-- All kinds in a term are words. -/
def HasWords (r : Term) : Prop :=
  ∀ a ∈ r.preOrder, IsWord a.kind

theorem hasWords_node {a : Atom} {cs : List Term} :
    HasWords (.node a cs) ↔ IsWord a.kind ∧ ∀ c ∈ cs, HasWords c := by
  constructor
  · intro h
    refine ⟨h a (Rose.mem_preOrder_node.2 (.inl rfl)), fun c hc x hx => ?_⟩
    exact h x (Rose.mem_preOrder_node.2 (.inr ⟨c, hc, hx⟩))
  · rintro ⟨ha, hcs⟩ x hx
    rcases Rose.mem_preOrder_node.1 hx with rfl | ⟨c, hc, hx⟩
    · exact ha
    · exact hcs c hc x hx

theorem isWordChar_iff {c : Char} :
    isWordChar c = true ↔ isSeparator c = false ∧ c ≠ '(' ∧ c ≠ ')' ∧ c ≠ ':' := by
  simp [isWordChar, isParen, and_assoc]

namespace State

variable {s : State} {p : Pause} {groups : List Frame} {role : Role} {k : Kind} {latest cs : List Char}
  {offset : Nat} {c : Char}

theorem spell_reverse (text : String) : spell text.toList.reverse = text := by
  rw [spell, List.reverse_reverse, String.ofList_toList]

/-! ### What a state leads to -/

/-- Unless more of a kind or a label follows, the state is as good as the pause. -/
structure Reaches (s : State) (p : Pause) : Prop where
  result_eq : ∀ offset, s.result offset = ofPause p
  step_eq : ∀ offset c, (isSeparator c || isParen c) = true → s.step offset c = p.step offset c

theorem reaches_pause (p : Pause) : (pause p).Reaches p :=
  ⟨fun _ => rfl, fun _ _ _ => rfl⟩

theorem reaches_kind : (kind groups role latest).Reaches (.settle groups role ⟨spell latest, none⟩) where
  result_eq _ := rfl
  step_eq offset c hc := by
    have hcolon : c ≠ ':' := by
      rintro rfl
      exact absurd hc (by decide)
    rw [step, if_neg hcolon, if_pos hc]

theorem reaches_label :
    (label groups role k latest).Reaches (.settle groups role ⟨k, some (spell latest)⟩) where
  result_eq _ := rfl
  step_eq offset c hc := by rw [step, stepLabel, if_pos hc]

/-- A separator completes the last node. -/
theorem Reaches.step_separator (h : s.Reaches p) (hc : isSeparator c = true) :
    s.step offset c = pause p := by
  rw [h.step_eq offset c (by rw [hc, Bool.true_or])]
  unfold Pause.step
  rw [if_pos hc]

/-- A closing parenthesis completes the last node, then the group. -/
theorem Reaches.step_close {f : Frame} (h : s.Reaches (.within (f :: groups))) :
    s.step offset ')' = pause (.attach groups f.close) := by
  rw [h.step_eq offset ')' (by decide)]
  rfl

/-! ### Atoms -/

/-- In the state the atom is due that is going to have the role. -/
def Awaits (s : State) (groups : List Frame) (role : Role) : Prop :=
  ∀ offset c, isWordChar c = true → s.step offset c = kind groups role [c]

theorem awaits_within (groups : List Frame) : (pause (.within groups)).Awaits groups .leaf := by
  intro offset c hc
  obtain ⟨hsep, hopen, hclose, hcolon⟩ := isWordChar_iff.1 hc
  simp only [step, Pause.step, hsep, Bool.false_eq_true, if_false, if_neg hopen, if_neg hclose,
    if_neg hcolon]

theorem awaits_opened (groups : List Frame) : (opened groups).Awaits groups .head := by
  intro offset c hc
  obtain ⟨hsep, hopen, hclose, hcolon⟩ := isWordChar_iff.1 hc
  simp [step, hsep, isParen, hopen, hclose, hcolon]

theorem feed_kind (h : ∀ c ∈ cs, isWordChar c = true) :
    (kind groups role latest).feed offset cs = kind groups role (cs.reverse ++ latest) := by
  induction cs generalizing latest offset with
  | nil => rfl
  | cons c cs ih =>
    obtain ⟨hsep, hopen, hclose, hcolon⟩ := isWordChar_iff.1 (h c List.mem_cons_self)
    have hstep : (kind groups role latest).step offset c = kind groups role (c :: latest) := by
      simp [step, hsep, isParen, hopen, hclose, hcolon]
    rw [feed_cons, hstep, ih fun d hd => h d (List.mem_cons_of_mem c hd), List.reverse_cons,
      List.append_assoc]
    rfl

/-- A word is read as a kind. -/
theorem Awaits.feed_word (hs : s.Awaits groups role) (hk : IsWord k) :
    s.feed offset k.toList = kind groups role k.toList.reverse := by
  obtain ⟨hne, hword⟩ := hk
  cases hchars : k.toList with
  | nil => exact absurd hchars hne
  | cons c cs =>
    rw [hchars] at hword
    rw [feed_cons, hs offset c (hword c List.mem_cons_self),
      feed_kind fun d hd => hword d (List.mem_cons_of_mem c hd), List.reverse_cons]

theorem feed_label (h : ∀ c ∈ cs, (isSeparator c || isParen c) = false) :
    (label groups role k latest).feed offset cs = label groups role k (cs.reverse ++ latest) := by
  induction cs generalizing latest offset with
  | nil => rfl
  | cons c cs ih =>
    have hstep : (label groups role k latest).step offset c = label groups role k (c :: latest) := by
      rw [step, stepLabel, h c List.mem_cons_self]
      rfl
    rw [feed_cons, hstep, ih fun d hd => h d (List.mem_cons_of_mem c hd), List.reverse_cons,
      List.append_assoc]
    rfl

/-- Inside quotes an escaped character is read as the character. -/
theorem feed_escape (quote : Nat) :
    (quoted groups role k quote false latest).feed offset (escape c) =
      quoted groups role k quote false (c :: latest) := by
  unfold escape
  split
  · simp [step]
  · next hplain =>
    rw [not_or] at hplain
    simp [step, hplain.1, hplain.2]

theorem feed_quoted (quote : Nat) (label : List Char) :
    (quoted groups role k quote false latest).feed offset (label.flatMap escape ++ ['"']) =
      pause (.settle groups role ⟨k, some (spell (label.reverse ++ latest))⟩) := by
  induction label generalizing latest offset with
  | nil => rfl
  | cons c label ih =>
    rw [List.flatMap_cons, List.append_assoc, feed_append, feed_escape, ih, List.reverse_cons,
      List.append_assoc]
    rfl

/-- A label that is written without quotes is one run, and no quote comes first in it. -/
theorem plain_of_not_needsQuotes (h : ¬ needsQuotes cs = true) :
    cs ≠ [] ∧ ∀ c ∈ cs, (isSeparator c || isParen c) = false ∧ c ≠ '"' := by
  simp only [needsQuotes, Bool.or_eq_true, not_or, List.any_eq_true, not_exists, not_and,
    Bool.not_eq_true, List.isEmpty_eq_false_iff, beq_iff_eq] at h
  obtain ⟨hne, hchars⟩ := h
  refine ⟨hne, fun c hc => ?_⟩
  obtain ⟨⟨hblank, hparen⟩, hquote⟩ := hchars c hc
  -- every separator is blank, but not the other way round
  have hsep : isSeparator c = false := by
    refine Bool.eq_false_iff.2 fun hsep => ?_
    rw [isBlank_of_isSeparator hsep] at hblank
    cases hblank
  exact ⟨by rw [hsep, hparen, Bool.or_false], hquote⟩

/-- After a colon the written form of a label is read as the label. -/
theorem reaches_writeLabel (groups : List Frame) (role : Role) (k : Kind) (offset : Nat) (l : String) :
    ((colon groups role k).feed offset (writeLabel l.toList)).Reaches
      (.settle groups role ⟨k, some l⟩) := by
  unfold writeLabel
  split
  · rw [feed_cons]
    show ((quoted groups role k offset false []).feed _ _).Reaches _
    rw [feed_quoted, List.append_nil, spell_reverse]
    exact reaches_pause _
  · next hbare =>
    obtain ⟨hne, hplain⟩ := plain_of_not_needsQuotes hbare
    cases hlabel : l.toList with
    | nil => exact absurd hlabel hne
    | cons c cs =>
      rw [hlabel] at hplain
      obtain ⟨hrun, hquote⟩ := hplain c List.mem_cons_self
      have hfirst : (colon groups role k).step offset c = label groups role k [c] := by
        rw [step, if_neg hquote, stepLabel, hrun]
        rfl
      rw [feed_cons, hfirst, feed_label fun d hd => (hplain d (List.mem_cons_of_mem c hd)).1,
        ← List.reverse_cons, ← hlabel]
      have hreaches : (label groups role k l.toList.reverse).Reaches
          (.settle groups role ⟨k, some (spell l.toList.reverse)⟩) := reaches_label
      rwa [spell_reverse] at hreaches

/-- Where an atom is due, its written form is read as the atom. -/
theorem Awaits.reaches_writeAtom (hs : s.Awaits groups role) (offset : Nat) {a : Atom}
    (ha : IsWord a.kind) : (s.feed offset (writeAtom a)).Reaches (.settle groups role a) := by
  obtain ⟨k, label⟩ := a
  unfold writeAtom
  cases label with
  | none =>
    have hreaches : (kind groups role k.toList.reverse).Reaches
        (.settle groups role ⟨spell k.toList.reverse, none⟩) := reaches_kind
    rw [hs.feed_word ha]
    rwa [spell_reverse] at hreaches
  | some l =>
    have hcolon : ∀ offset, (kind groups role k.toList.reverse).step offset ':' = colon groups role k := by
      intro offset
      rw [step, if_pos rfl, spell_reverse]
    rw [feed_append, hs.feed_word ha, feed_cons, hcolon]
    exact reaches_writeLabel groups role k _ l

end State

/-! ### Terms -/

/-- A term the way it is written: nodes with children stand in parentheses. -/
def sketch : Term → Sketch :=
  Rose.fold fun a cs => .node ⟨a, !cs.isEmpty⟩ cs

theorem sketch_node (a : Atom) (cs : List Term) :
    sketch (.node a cs) = .node ⟨a, !cs.isEmpty⟩ (cs.map sketch) := by
  rw [sketch, Rose.fold_node, List.isEmpty_map]

theorem term_sketch (r : Term) : (sketch r).term = r := by
  induction r using Rose.ind with
  | node a cs ih =>
    rw [sketch_node, Sketch.term, Rose.map_node, List.map_map]
    refine congrArg (Rose.node a) ?_
    calc cs.map (Sketch.term ∘ sketch)
      _ = cs.map id := List.map_congr_left ih
      _ = cs := List.map_id cs

namespace State

variable {s : State} {groups : List Frame} {a : Atom} {cs : List Term}

/-- The written forms of further children, each after a space, are put into the open group. -/
theorem Reaches.feed_children {latest : List Sketch}
    (hs : s.Reaches (.within (⟨a, latest⟩ :: groups)))
    (h : ∀ c ∈ cs, ∀ groups offset,
      ((pause (.within groups)).feed offset (write c)).Reaches (.attach groups (sketch c)))
    (offset : Nat) : (s.feed offset ((cs.map write).flatMap (' ' :: ·))).Reaches
      (.within (⟨a, (cs.map sketch).reverse ++ latest⟩ :: groups)) := by
  induction cs generalizing s latest offset with
  | nil => exact hs
  | cons c cs ih =>
    have hchild := h c List.mem_cons_self (⟨a, latest⟩ :: groups) (offset + ' '.utf8Size)
    rw [List.map_cons, List.flatMap_cons, List.cons_append, feed_cons,
      hs.step_separator (by decide), feed_append, List.map_cons, List.reverse_cons, List.append_assoc]
    exact ih hchild (fun d hd => h d (List.mem_cons_of_mem c hd)) _

/-- The written form of a term is read as the term, wherever a node is due. -/
theorem reaches_write (r : Term) (hr : HasWords r) : ∀ (groups : List Frame) (offset : Nat),
    ((pause (.within groups)).feed offset (write r)).Reaches (.attach groups (sketch r)) := by
  induction r using Rose.ind with
  | node a cs ih =>
    intro groups offset
    obtain ⟨ha, hcs⟩ := hasWords_node.1 hr
    rw [write_node, sketch_node, writeNode, List.isEmpty_map]
    cases hempty : cs.isEmpty with
    | true =>
      rw [List.isEmpty_iff.1 hempty]
      exact (awaits_within groups).reaches_writeAtom offset ha
    | false =>
      -- the head opens a group, the children go into it, and the last parenthesis closes it
      have hopen : ∀ offset, (pause (.within groups)).step offset '(' = opened groups := fun _ => rfl
      have hhead := (awaits_opened groups).reaches_writeAtom (offset + '('.utf8Size) ha
      have hchildren := fun offset => hhead.feed_children (fun c hc => ih c hc (hcs c hc)) offset
      rw [if_neg (by decide), feed_cons, hopen, feed_append, feed_append, feed_cons,
        (hchildren _).step_close, feed_nil, Frame.close, List.append_nil, List.reverse_reverse]
      exact reaches_pause _

end State

/-- A term whose kinds are words is read back from its written form. -/
theorem read_write {r : Term} (hr : HasWords r) :
    Sketch.read (String.ofList (write r)) = .ok (sketch r) := by
  unfold Sketch.read
  rw [String.toList_ofList, State.start, (State.reaches_write r hr [] 0).result_eq]
  rfl

/-! ### Only words are read -/

theorem hasWords_term_node {w : Written} {cs : List Sketch} :
    HasWords (Sketch.term (.node w cs)) ↔ IsWord w.atom.kind ∧ ∀ c ∈ cs, HasWords (Sketch.term c) := by
  rw [Sketch.term, Rose.map_node, hasWords_node, List.forall_mem_map]

/-- The head of a group and all that has been read below it. -/
structure Frame.HasWords (f : Frame) : Prop where
  head : IsWord f.head.kind
  latest : ∀ x ∈ f.latest, Text.HasWords x.term

/-- All kinds that have been read are words. -/
def Pause.HasWords : Pause → Prop
  | within groups => ∀ f ∈ groups, f.HasWords
  | done root => Text.HasWords root.term

/-- All kinds that have been read are words, and so is the one under way. -/
def State.HasWords : State → Prop
  | pause p => p.HasWords
  | opened groups => ∀ f ∈ groups, f.HasWords
  | kind groups _ latest => (∀ f ∈ groups, f.HasWords) ∧ latest ≠ [] ∧ ∀ c ∈ latest, isWordChar c = true
  | colon groups _ k | label groups _ k _ | quoted groups _ k _ _ _ =>
    (∀ f ∈ groups, f.HasWords) ∧ IsWord k
  | failed _ => True

theorem isWord_spell {latest : List Char} (hne : latest ≠ [])
    (h : ∀ c ∈ latest, isWordChar c = true) : IsWord (State.spell latest) := by
  have hchars : (State.spell latest).toList = latest.reverse := by
    rw [State.spell, String.toList_ofList]
  refine ⟨?_, fun c hc => ?_⟩
  · rw [hchars]
    simpa using hne
  · rw [hchars] at hc
    exact h c (List.mem_reverse.1 hc)

namespace Pause

variable {groups : List Frame}

theorem hasWords_attach (h : ∀ f ∈ groups, f.HasWords) {x : Sketch} (hx : Text.HasWords x.term) :
    (attach groups x).HasWords := by
  cases groups with
  | nil => exact hx
  | cons f fs =>
    obtain ⟨hf, hfs⟩ := List.forall_mem_cons.1 h
    exact List.forall_mem_cons.2 ⟨⟨hf.head, List.forall_mem_cons.2 ⟨hx, hf.latest⟩⟩, hfs⟩

theorem hasWords_settle (h : ∀ f ∈ groups, f.HasWords) (role : Role) {k : Kind} (hk : IsWord k)
    {label : Option String} : (settle groups role ⟨k, label⟩).HasWords := by
  cases role with
  | head => exact List.forall_mem_cons.2 ⟨⟨hk, fun _ hx => nomatch hx⟩, h⟩
  | leaf => exact hasWords_attach h (hasWords_term_node.2 ⟨hk, fun _ hx => nomatch hx⟩)

theorem hasWords_step {p : Pause} (h : p.HasWords) (offset : Nat) (c : Char) :
    (p.step offset c).HasWords := by
  unfold step
  split
  · exact h
  next hsep =>
  split
  · trivial
  next groups =>
  have hgroups : ∀ f ∈ groups, f.HasWords := h
  split
  · exact hgroups
  next hopen =>
  split
  · -- a group is closed, unless there is none
    split
    · trivial
    · next f fs =>
      obtain ⟨hf, hfs⟩ := List.forall_mem_cons.1 hgroups
      refine hasWords_attach hfs (hasWords_term_node.2 ⟨hf.head, fun x hx => ?_⟩)
      exact hf.latest x (List.mem_reverse.1 hx)
  next hclose =>
  split
  · trivial
  next hcolon =>
  -- the first character of a kind
  refine ⟨hgroups, List.cons_ne_nil _ _, fun d hd => ?_⟩
  obtain rfl := List.mem_singleton.1 hd
  exact isWordChar_iff.2 ⟨by simpa using hsep, hopen, hclose, hcolon⟩

end Pause

namespace State

variable {groups : List Frame} {role : Role} {k : Kind}

theorem hasWords_stepLabel (h : ∀ f ∈ groups, f.HasWords) (hk : IsWord k) (latest : List Char)
    (offset : Nat) (c : Char) : (stepLabel groups role k latest offset c).HasWords := by
  unfold stepLabel
  split
  · exact Pause.hasWords_step (Pause.hasWords_settle h role hk) offset c
  · exact ⟨h, hk⟩

/-- Taking a character keeps what has been read to words. -/
theorem hasWords_step {s : State} (h : s.HasWords) (offset : Nat) (c : Char) :
    (s.step offset c).HasWords := by
  cases s with
  | pause p => exact Pause.hasWords_step h offset c
  | opened groups =>
    rw [step]
    split
    · exact h
    next hsep =>
    split
    · trivial
    next hend =>
    refine ⟨h, List.cons_ne_nil _ _, fun d hd => ?_⟩
    obtain rfl := List.mem_singleton.1 hd
    simpa [isWordChar, isParen, hsep] using hend
  | kind groups role latest =>
    obtain ⟨hgroups, hne, hchars⟩ := h
    have hword := isWord_spell hne hchars
    rw [step]
    split
    · exact ⟨hgroups, hword⟩
    next hcolon =>
    split
    · exact Pause.hasWords_step (Pause.hasWords_settle hgroups role hword) offset c
    next hend =>
    refine ⟨hgroups, List.cons_ne_nil _ _, List.forall_mem_cons.2 ⟨?_, hchars⟩⟩
    simpa [isWordChar, hcolon] using hend
  | colon groups role k =>
    rw [step]
    split
    · exact h
    · exact hasWords_stepLabel h.1 h.2 [] offset c
  | label groups role k latest => exact hasWords_stepLabel h.1 h.2 latest offset c
  | quoted groups role k quote escaped latest =>
    rw [step]
    split
    · exact h
    split
    · exact h
    split
    · exact Pause.hasWords_settle h.1 role h.2
    · exact h
  | failed e => trivial

theorem hasWords_feed {s : State} (h : s.HasWords) (offset : Nat) (cs : List Char) :
    (s.feed offset cs).HasWords := by
  induction cs generalizing s offset with
  | nil => exact h
  | cons c cs ih => exact ih (hasWords_step h offset c) _

theorem hasWords_of_ofPause {p : Pause} (h : p.HasWords) {x : Sketch} (hx : ofPause p = .ok x) :
    Text.HasWords x.term := by
  cases p with
  | within groups => cases hx
  | done root =>
    cases hx
    exact h

theorem hasWords_of_result {s : State} (h : s.HasWords) {offset : Nat} {x : Sketch}
    (hx : s.result offset = .ok x) : Text.HasWords x.term := by
  cases s with
  | pause p => exact hasWords_of_ofPause h hx
  | kind groups role latest =>
    exact hasWords_of_ofPause (Pause.hasWords_settle h.1 role (isWord_spell h.2.1 h.2.2)) hx
  | colon groups role k | label groups role k latest =>
    exact hasWords_of_ofPause (Pause.hasWords_settle h.1 role h.2) hx
  | opened groups | quoted groups role k quote escaped latest | failed e => cases hx

end State

/-- All kinds in a tree that was read are words. -/
theorem hasWords_of_read {text : String} {x : Sketch} (h : Sketch.read text = .ok x) :
    HasWords x.term := by
  have hstart : State.start.HasWords := fun _ hf => nomatch hf
  exact State.hasWords_of_result (State.hasWords_feed hstart 0 text.toList) h

end Text

end Counterpart
