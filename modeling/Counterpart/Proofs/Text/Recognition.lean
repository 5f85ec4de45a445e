import Counterpart.Proofs.Text.Grammar

/-!
# The reader accepts exactly the texts of the grammar

`State.outcome` is the answer for the remaining text. A form in front of the remaining text can be cut off:
reading it leads to the pause in which what it writes has been put in its place (`outcome_node`). Conversely,
where the answer is a tree, the remaining text has a form in front that can be cut off
(`exists_node_of_outcome`). So reading succeeds with a sketch if and only if the text has a derivation of it
(`read_eq_ok_iff`).
-/

namespace Counterpart.Text

namespace State

variable {s : State} {p : Pause} {groups : List Frame} {role : Role} {k : Kind} {rest : List Char}
  {latest : List Char} {offset : Nat} {x : Sketch}

/-- The answer for a text of which the given characters, from `offset` on, are left. -/
def outcome (s : State) (offset : Nat) (cs : List Char) : Except ReadError Sketch :=
  (s.feed offset cs).result (offset + byteLength cs)

theorem outcome_append (s : State) (offset : Nat) (cs ds : List Char) :
    s.outcome offset (cs ++ ds) = (s.feed offset cs).outcome (offset + byteLength cs) ds := by
  rw [outcome, outcome, feed_append, byteLength_append, Nat.add_assoc]

theorem outcome_cons (s : State) (offset : Nat) (c : Char) (cs : List Char) :
    s.outcome offset (c :: cs) = (s.step offset c).outcome (offset + c.utf8Size) cs :=
  outcome_append s offset [c] cs

theorem outcome_failed (e : ReadError) (offset : Nat) (cs : List Char) :
    (failed e).outcome offset cs = .error e := by
  rw [outcome, feed_failed]
  rfl

/-- Where the longest run ends, the state is as good as the pause that it leads to. -/
theorem Reaches.outcome_eq (h : s.Reaches p) (hrest : StopsAt isLabelChar rest) :
    s.outcome offset rest = (pause p).outcome offset rest := by
  cases rest with
  | nil => exact h.result_eq offset
  | cons c cs =>
    have hlabel : isLabelChar c = false := hrest
    have hend : (isSeparator c || isParen c) = true := by rwa [isLabelChar, Bool.not_eq_false'] at hlabel
    rw [outcome_cons, outcome_cons, h.step_eq offset c hend]
    rfl

theorem reaches_colon : (colon groups role k).Reaches (.settle groups role ⟨k, some ""⟩) where
  result_eq _ := rfl
  step_eq offset c hc := by
    have hquote : c ≠ '"' := by
      rintro rfl
      exact absurd hc (by decide)
    rw [step, if_neg hquote, stepLabel, if_pos hc]
    rfl

/-! ### Cutting off a form -/

theorem feed_pause_gap {gap : List Char} (h : IsGap gap) : (pause p).feed offset gap = pause p := by
  induction gap generalizing offset with
  | nil => rfl
  | cons c cs ih =>
    obtain ⟨hc, hcs⟩ := List.forall_mem_cons.1 h
    rw [feed_cons, (reaches_pause p).step_separator hc, ih hcs]

theorem feed_opened_gap {gap : List Char} (h : IsGap gap) :
    (opened groups).feed offset gap = opened groups := by
  induction gap generalizing offset with
  | nil => rfl
  | cons c cs ih =>
    obtain ⟨hc, hcs⟩ := List.forall_mem_cons.1 h
    have hstep : (opened groups).step offset c = opened groups := by rw [step, if_pos hc]
    rw [feed_cons, hstep, ih hcs]

theorem feed_quotedChar {q : QuotedChar} (hq : q.Fits) (quote : Nat) :
    (quoted groups role k quote false latest).feed offset q.text =
      quoted groups role k quote false (q.char :: latest) := by
  cases hesc : q.escaped with
  | true =>
    rw [QuotedChar.text_escaped hesc]
    rfl
  | false =>
    obtain ⟨hquote, hback⟩ : q.char ≠ '"' ∧ q.char ≠ '\\' := by
      rcases hq with hq | hq
      · rw [hesc] at hq; cases hq
      · exact hq
    rw [QuotedChar.text_plain hesc]
    simp [step, hquote, hback]

theorem feed_quotedChars {qs : List QuotedChar} (hqs : ∀ q ∈ qs, q.Fits) (quote : Nat) :
    (quoted groups role k quote false latest).feed offset (qs.flatMap QuotedChar.text) =
      quoted groups role k quote false ((qs.map QuotedChar.char).reverse ++ latest) := by
  induction qs generalizing latest offset with
  | nil => rfl
  | cons q qs ih =>
    obtain ⟨hq, hmore⟩ := List.forall_mem_cons.1 hqs
    rw [List.flatMap_cons, feed_append, feed_quotedChar hq, ih hmore, List.map_cons, List.reverse_cons,
      List.append_assoc]
    rfl

theorem outcome_label {l : LabelForm} (hl : l.Fits rest) :
    (colon groups role k).outcome offset (l.text ++ rest) =
      (pause (.settle groups role ⟨k, some l.value⟩)).outcome (offset + byteLength l.text) rest := by
  cases l with
  | run cs =>
    obtain ⟨hrun, hquote, hstop⟩ := hl
    rw [outcome_append]
    cases cs with
    | nil => exact reaches_colon.outcome_eq hstop
    | cons c cs =>
      have hplain : ∀ d ∈ c :: cs, (isSeparator d || isParen d) = false := by
        simpa [isLabelChar] using hrun
      have hfirst : (colon groups role k).step offset c = label groups role k [c] := by
        have hne : c ≠ '"' := fun heq => hquote (by rw [heq]; rfl)
        rw [step, if_neg hne, stepLabel, hplain c List.mem_cons_self]
        rfl
      have hreaches : (label groups role k (c :: cs).reverse).Reaches
          (.settle groups role ⟨k, some (spell (c :: cs).reverse)⟩) := reaches_label
      show ((colon groups role k).feed offset (c :: cs)).outcome _ rest = _
      rw [feed_cons, hfirst, feed_label fun d hd => hplain d (List.mem_cons_of_mem c hd),
        ← List.reverse_cons, hreaches.outcome_eq hstop, spell, List.reverse_reverse]
      rfl
  | quoted qs =>
    have hfeed : (colon groups role k).feed offset (LabelForm.quoted qs).text =
        pause (.settle groups role ⟨k, some (LabelForm.quoted qs).value⟩) := by
      rw [LabelForm.text, feed_cons]
      show (quoted groups role k offset false []).feed _ _ = _
      rw [feed_append, feed_quotedChars hl, List.append_nil]
      show pause (.settle groups role ⟨k, some (spell (qs.map QuotedChar.char).reverse)⟩) = _
      rw [spell, List.reverse_reverse]
      rfl
    rw [outcome_append, hfeed]

/-- An atom can be cut off wherever one is due. A colon after a kind would belong to the atom. -/
theorem Awaits.outcome_atom (hs : s.Awaits groups role) {a : AtomForm} (ha : a.Fits rest)
    (hrest : a.label = none → StopsAt (· == ':') rest) (offset : Nat) :
    s.outcome offset (a.text ++ rest) =
      (pause (.settle groups role a.atom)).outcome (offset + byteLength a.text) rest := by
  obtain ⟨k, label⟩ := a
  obtain ⟨hword, hlabel⟩ := ha
  cases label with
  | none =>
    have htext : (AtomForm.mk k none).text = k.toList := List.append_nil _
    have hstop : StopsAt isLabelChar rest := by
      cases rest with
      | nil => trivial
      | cons c cs =>
        have hkind : isWordChar c = false := hlabel
        have hcolon : (c == ':') = false := hrest rfl
        show isLabelChar c = false
        rw [isWordChar, hcolon, Bool.or_false] at hkind
        exact hkind
    have hreaches : (kind groups role k.toList.reverse).Reaches
        (.settle groups role ⟨spell k.toList.reverse, none⟩) := reaches_kind
    rw [outcome_append, htext, hs.feed_word hword, hreaches.outcome_eq hstop, spell_reverse]
    rfl
  | some l =>
    have hcolon : ∀ offset, (kind groups role k.toList.reverse).step offset ':' = colon groups role k := by
      intro offset
      rw [step, if_pos rfl, spell_reverse]
    have htext : (AtomForm.mk k (some l)).text = k.toList ++ ':' :: l.text := rfl
    rw [htext, List.append_assoc, outcome_append, hs.feed_word hword, List.cons_append, outcome_cons,
      hcolon, outcome_label hlabel, byteLength_append, byteLength_cons]
    simp only [Nat.add_assoc]
    rfl

mutual

/-- A node can be cut off wherever one is due. -/
theorem outcome_node : ∀ (f : NodeForm) (rest : List Char) (groups : List Frame) (offset : Nat),
    f.Fits rest → StopsAt (· == ':') rest →
    (pause (.within groups)).outcome offset (f.text ++ rest) =
      (pause (.attach groups f.sketch)).outcome (offset + byteLength f.text) rest
  | .bare a, rest, groups, offset, hf, hrest => by
    rw [NodeForm.text, NodeForm.sketch]
    exact (awaits_within groups).outcome_atom hf (fun _ => hrest) offset
  | .group lead head tail, rest, groups, offset, hf, _ => by
    obtain ⟨hlead, hhead, htail⟩ := hf
    have hopen : ∀ offset, (pause (.within groups)).step offset '(' = opened groups := fun _ => rfl
    have hatom := (awaits_opened groups).outcome_atom hhead fun _ => htail.stopsAt_colon
    have hclose := fun offset => outcome_tail tail rest ⟨head.atom, []⟩ groups offset htail
    rw [NodeForm.text, List.cons_append, outcome_cons, hopen, List.append_assoc, outcome_append,
      feed_opened_gap hlead, List.append_assoc, hatom]
    show (pause (.within (⟨head.atom, []⟩ :: groups))).outcome _ _ = _
    rw [hclose, Frame.close, List.append_nil, List.reverse_reverse, NodeForm.sketch, byteLength_cons,
      byteLength_append, byteLength_append]
    simp only [Nat.add_assoc]

/-- What comes after the head of a group can be cut off inside the group: it closes the group. -/
theorem outcome_tail : ∀ (g : GroupTail) (rest : List Char) (f : Frame) (groups : List Frame)
    (offset : Nat), g.Fits rest →
    (pause (.within (f :: groups))).outcome offset (g.text ++ rest) =
      (pause (.attach groups (Frame.close ⟨f.head, g.sketches.reverse ++ f.latest⟩))).outcome
        (offset + byteLength g.text) rest
  | .close gap, rest, f, groups, offset, hg => by
    rw [GroupTail.text, outcome_append, feed_append, feed_pause_gap hg, feed_cons,
      (reaches_pause _).step_close, feed_nil]
    rfl
  | .child gap node tail, rest, f, groups, offset, hg => by
    obtain ⟨hgap, hnode, htail⟩ := hg
    have hfirst := fun offset =>
      outcome_node node (tail.text ++ rest) (f :: groups) offset hnode htail.stopsAt_colon
    have hmore := fun offset =>
      outcome_tail tail rest ⟨f.head, node.sketch :: f.latest⟩ groups offset htail
    rw [GroupTail.text, List.append_assoc, outcome_append, feed_pause_gap hgap, List.append_assoc, hfirst]
    show (pause (.within (⟨f.head, node.sketch :: f.latest⟩ :: groups))).outcome _ _ = _
    rw [hmore, GroupTail.sketches, List.reverse_cons, List.append_assoc, byteLength_append,
      byteLength_append]
    simp only [Nat.add_assoc]
    rfl

end

/-! ### Finding a form to cut off -/

theorem exists_run (p : Char → Bool) (cs : List Char) :
    ∃ run rest, cs = run ++ rest ∧ (∀ c ∈ run, p c = true) ∧ StopsAt p rest := by
  induction cs with
  | nil => exact ⟨[], [], rfl, nofun, trivial⟩
  | cons c cs ih =>
    cases hc : p c with
    | false => exact ⟨[], c :: cs, rfl, nofun, hc⟩
    | true =>
      obtain ⟨run, rest, rfl, hrun, hrest⟩ := ih
      exact ⟨c :: run, rest, rfl, List.forall_mem_cons.2 ⟨hc, hrun⟩, hrest⟩

/-- After an opening quote there is a closing one, or the label has no end. -/
theorem quotedChars_or_unterminated : ∀ cs : List Char,
    (∃ (qs : List QuotedChar) (rest : List Char),
      cs = qs.flatMap QuotedChar.text ++ '"' :: rest ∧ ∀ q ∈ qs, q.Fits) ∨
    ∀ groups role k quote latest offset,
      (quoted groups role k quote false latest).outcome offset cs = .error (.unterminatedLabel quote)
  | [] => .inr fun _ _ _ _ _ _ => rfl
  | [c] => by
    by_cases hquote : c = '"'
    · exact .inl ⟨[], [], by rw [hquote]; rfl, nofun⟩
    · right
      intro groups role k quote latest offset
      by_cases hback : c = '\\'
      · subst hback; rfl
      · rw [outcome_cons, step, if_neg (by decide), if_neg hback, if_neg hquote]
        rfl
  | c :: d :: cs => by
    by_cases hquote : c = '"'
    · exact .inl ⟨[], d :: cs, by rw [hquote]; rfl, nofun⟩
    by_cases hback : c = '\\'
    · -- the backslash makes `d` literal
      subst hback
      rcases quotedChars_or_unterminated cs with ⟨qs, rest, rfl, hqs⟩ | hopen
      · exact .inl ⟨⟨true, d⟩ :: qs, rest, rfl, List.forall_mem_cons.2 ⟨.inl rfl, hqs⟩⟩
      · right
        intro groups role k quote latest offset
        rw [outcome_cons, outcome_cons]
        exact hopen groups role k quote (d :: latest) _
    · rcases quotedChars_or_unterminated (d :: cs) with ⟨qs, rest, hcs, hqs⟩ | hopen
      · refine .inl ⟨⟨false, c⟩ :: qs, rest, ?_, List.forall_mem_cons.2 ⟨.inr ⟨hquote, hback⟩, hqs⟩⟩
        rw [hcs]
        rfl
      · right
        intro groups role k quote latest offset
        rw [outcome_cons, step, if_neg (by decide), if_neg hback, if_neg hquote]
        exact hopen groups role k quote (c :: latest) _

/-- After a colon there is a label, unless a quoted one has no end. -/
theorem exists_label_of_outcome {cs : List Char}
    (h : (colon groups role k).outcome offset cs = .ok x) :
    ∃ (l : LabelForm) (rest : List Char), cs = l.text ++ rest ∧ l.Fits rest := by
  cases cs with
  | nil => exact ⟨.run [], [], rfl, nofun, nofun, trivial⟩
  | cons c cs =>
    by_cases hquote : c = '"'
    · subst hquote
      rcases quotedChars_or_unterminated cs with ⟨qs, rest, rfl, hqs⟩ | hopen
      · exact ⟨.quoted qs, rest, (LabelForm.text_quoted_append qs rest).symm, hqs⟩
      · have hstep : (colon groups role k).step offset '"' = quoted groups role k offset false [] := rfl
        rw [outcome_cons, hstep, hopen] at h
        cases h
    · obtain ⟨run, rest, hcs, hrun, hrest⟩ := exists_run isLabelChar (c :: cs)
      refine ⟨.run run, rest, hcs, hrun, ?_, hrest⟩
      cases run with
      | nil => nofun
      | cons d run =>
        obtain rfl : c = d := (List.cons.inj hcs).1
        exact fun hhead => hquote (Option.some.inj hhead)

/-- Where an atom is due and a kind begins, there is an atom to cut off. -/
theorem Awaits.exists_atom_of_outcome (hs : s.Awaits groups role) {c : Char} {cs : List Char}
    (hc : isWordChar c = true) (h : s.outcome offset (c :: cs) = .ok x) :
    ∃ (a : AtomForm) (rest : List Char) (offset' : Nat), c :: cs = a.text ++ rest ∧ a.Fits rest ∧
      (pause (.settle groups role a.atom)).outcome offset' rest = .ok x := by
  obtain ⟨run, rest, hcs, hrun, hrest⟩ := exists_run isWordChar (c :: cs)
  have hword : IsWord (String.ofList run) := by
    refine ⟨?_, by simpa using hrun⟩
    rw [String.toList_ofList]
    rintro rfl
    rw [List.nil_append] at hcs
    subst hcs
    have hstop : isWordChar c = false := hrest
    rw [hc] at hstop; cases hstop
  -- it is enough to tell where the atom ends
  suffices hatom : ∃ (label : Option LabelForm) (rest' : List Char),
      c :: cs = (AtomForm.mk (String.ofList run) label).text ++ rest' ∧
        (AtomForm.mk (String.ofList run) label).Fits rest' ∧
          (label = none → StopsAt (· == ':') rest') by
    obtain ⟨label, rest', htext, hfits, hcolon⟩ := hatom
    rw [htext, hs.outcome_atom hfits hcolon] at h
    exact ⟨⟨String.ofList run, label⟩, rest', _, htext, hfits, h⟩
  by_cases hcolon : ∃ ds, rest = ':' :: ds
  · obtain ⟨ds, rfl⟩ := hcolon
    have hfeed : s.feed offset (String.ofList run).toList = _ := hs.feed_word hword
    rw [String.toList_ofList] at hfeed
    have hlabel : (colon groups role (spell run.reverse)).outcome
        (offset + byteLength run + ':'.utf8Size) ds = .ok x := by
      rw [hcs, outcome_append, hfeed, outcome_cons] at h
      exact h
    obtain ⟨l, rest', rfl, hl⟩ := exists_label_of_outcome hlabel
    refine ⟨some l, rest', ?_, ⟨hword, hl⟩, nofun⟩
    rw [hcs, AtomForm.text_append, String.toList_ofList]
  · refine ⟨none, rest, ?_, ⟨hword, hrest⟩, fun _ => ?_⟩
    · rw [hcs, AtomForm.text_append, String.toList_ofList]
    · cases rest with
      | nil => trivial
      | cons d ds => exact beq_eq_false_iff_ne.2 fun heq => hcolon ⟨ds, by rw [heq]⟩

/-- The remaining text of an open group has a tail in front that can be cut off. -/
def Closes (cs : List Char) : Prop :=
  ∀ (f : Frame) (groups : List Frame) (offset : Nat) (x : Sketch),
    (pause (.within (f :: groups))).outcome offset cs = .ok x →
    ∃ (g : GroupTail) (rest : List Char) (offset' : Nat), cs = g.text ++ rest ∧ g.Fits rest ∧
      (pause (.attach groups (Frame.close ⟨f.head, g.sketches.reverse ++ f.latest⟩))).outcome
        offset' rest = .ok x

/-- Where a node is due there is a node to cut off, provided that what is left after the head of a group
has a tail to cut off. -/
theorem exists_node_of_outcome {c : Char} {cs : List Char} (hsep : isSeparator c = false)
    (hclose : c ≠ ')') (ih : ∀ ds : List Char, ds.length < (c :: cs).length → Closes ds)
    (h : (pause (.within groups)).outcome offset (c :: cs) = .ok x) :
    ∃ (f : NodeForm) (rest : List Char) (offset' : Nat), c :: cs = f.text ++ rest ∧ f.Fits rest ∧
      (pause (.attach groups f.sketch)).outcome offset' rest = .ok x := by
  by_cases hopen : c = '('
  · subst hopen
    obtain ⟨lead, after, rfl, hlead, hafter⟩ := exists_run isSeparator cs
    have hopened : (opened groups).outcome (offset + '('.utf8Size + byteLength lead) after = .ok x := by
      rw [outcome_cons, outcome_append] at h
      have hstep : (pause (.within groups)).step offset '(' = opened groups := rfl
      rwa [hstep, feed_opened_gap hlead] at h
    cases after with
    | nil => cases hopened
    | cons d ds =>
      have hd : isWordChar d = true := by
        cases hword : isWordChar d with
        | true => rfl
        | false =>
          have hsepd : isSeparator d = false := hafter
          have hend : (isParen d || d == ':') = true := by
            rwa [isWordChar, hsepd, Bool.false_or, Bool.not_eq_false'] at hword
          rw [outcome_cons, step, if_neg (by rw [hsepd]; decide), if_pos hend, outcome_failed] at hopened
          cases hopened
      obtain ⟨a, rest, offset', htext, ha, hrest⟩ :=
        (awaits_opened groups).exists_atom_of_outcome hd hopened
      have hlen : rest.length < ('(' :: (lead ++ d :: ds)).length := by
        rw [htext]
        simp only [List.length_cons, List.length_append]
        omega
      obtain ⟨g, rest', offset'', rfl, hg, hdone⟩ := ih rest hlen ⟨a.atom, []⟩ groups offset' x hrest
      refine ⟨.group lead a g, rest', offset'', ?_, ⟨hlead, ha, hg⟩, ?_⟩
      · rw [htext, NodeForm.text, List.cons_append, List.append_assoc, List.append_assoc]
      · rwa [Frame.close, List.append_nil, List.reverse_reverse] at hdone
  · have hword : isWordChar c = true := by
      refine isWordChar_iff.2 ⟨hsep, hopen, hclose, ?_⟩
      rintro rfl
      rw [outcome_cons] at h
      have hstep : (pause (.within groups)).step offset ':' = failed (.missingKind offset) := rfl
      rw [hstep, outcome_failed] at h
      cases h
    obtain ⟨a, rest, offset', htext, ha, hrest⟩ := (awaits_within groups).exists_atom_of_outcome hword h
    exact ⟨.bare a, rest, offset', htext, ha, hrest⟩

theorem closes (cs : List Char) : Closes cs := by
  -- the induction is on the length, since a child may take any part of the text
  induction hn : cs.length using Nat.strongRecOn generalizing cs with
  | ind n ih =>
    intro f groups offset x h
    obtain ⟨gap, after, rfl, hgap, hafter⟩ := exists_run isSeparator cs
    rw [outcome_append, feed_pause_gap hgap] at h
    cases after with
    | nil => cases h
    | cons c cs =>
      have hsep : isSeparator c = false := hafter
      by_cases hclose : c = ')'
      · subst hclose
        rw [outcome_cons, (reaches_pause _).step_close] at h
        refine ⟨.close gap, cs, _, ?_, hgap, h⟩
        rw [GroupTail.text, List.append_assoc]
        rfl
      · have hshorter : ∀ ds : List Char, ds.length < (c :: cs).length → Closes ds := by
          intro ds hds
          refine ih ds.length ?_ ds rfl
          rw [← hn, List.length_append]
          omega
        obtain ⟨node, rest, offset', htext, hnode, hmore⟩ :=
          exists_node_of_outcome hsep hclose hshorter h
        have hlen : rest.length < (c :: cs).length := by
          obtain ⟨d, ds, -, hcons⟩ := hnode.exists_cons_text
          rw [htext, hcons, List.length_append, List.length_cons]
          omega
        obtain ⟨g, rest', offset'', rfl, hg, hdone⟩ := hshorter rest hlen _ _ _ _ hmore
        refine ⟨.child gap node g, rest', offset'', ?_, ⟨hgap, hnode, hg⟩, ?_⟩
        · rw [htext, GroupTail.text, List.append_assoc, List.append_assoc]
        · rw [GroupTail.sketches, List.reverse_cons, List.append_assoc]
          exact hdone

end State

/-! ### Documents -/

theorem read_eq_outcome (text : String) : Sketch.read text = State.start.outcome 0 text.toList := by
  rw [Sketch.read, State.outcome, Nat.zero_add]

/-- Reading succeeds exactly on the texts of the grammar, and finds the tree that is written. -/
theorem read_eq_ok_iff {text : String} {x : Sketch} :
    Sketch.read text = .ok x ↔ ∃ d : Document, d.IsValid ∧ d.text = text.toList ∧ d.sketch = x := by
  rw [read_eq_outcome, State.start]
  constructor
  · intro h
    obtain ⟨lead, after, hcs, hlead, hafter⟩ := State.exists_run isSeparator text.toList
    rw [hcs, State.outcome_append, State.feed_pause_gap hlead] at h
    cases after with
    | nil => cases h
    | cons c cs =>
      have hsep : isSeparator c = false := hafter
      have hclose : c ≠ ')' := by
        rintro rfl
        rw [State.outcome_cons] at h
        have hstep : ∀ offset, (State.pause (.within [])).step offset ')' =
          .failed (.unexpectedClose offset) := fun _ => rfl
        rw [hstep, State.outcome_failed] at h
        cases h
      obtain ⟨root, rest, offset, htext, hroot, hdone⟩ :=
        State.exists_node_of_outcome hsep hclose (fun ds _ => State.closes ds) h
      -- nothing but separators can follow the root
      obtain ⟨trail, more, rfl, htrail, hmore⟩ := State.exists_run isSeparator rest
      rw [State.outcome_append, State.feed_pause_gap htrail] at hdone
      cases more with
      | nil =>
        rw [List.append_nil] at hroot htext
        refine ⟨⟨lead, root, trail⟩, ⟨hlead, hroot, htrail⟩, ?_, ?_⟩
        · rw [hcs, htext]
          rfl
        · cases hdone
          rfl
      | cons d ds =>
        have hsepd : isSeparator d = false := hmore
        rw [State.outcome_cons, State.step, Pause.attach, Pause.step, if_neg (by rw [hsepd]; decide),
          State.outcome_failed] at hdone
        cases hdone
  · rintro ⟨d, hvalid, htext, rfl⟩
    have hcolon := hvalid.stopsAt_colon
    obtain ⟨hlead, hroot, htrail⟩ := hvalid
    rw [← htext, Document.text, State.outcome_append, State.feed_pause_gap hlead,
      State.outcome_node d.root d.trail [] _ hroot hcolon, Pause.attach]
    rw [State.outcome, State.feed_pause_gap htrail]
    rfl

end Counterpart.Text
