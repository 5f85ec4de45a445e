import Counterpart.Proofs.Text.Recognition
import Counterpart.Proofs.Text.RoundTrip

/-!
# What more text can mend

A text that is not read as a tree may be the beginning of one that is. As long as the reader has not failed
it can be led to the end of the tree: what is under way is ended, an open head is given a kind, and the open
groups are closed (`exists_completion`). An error that the end of the text causes is of one of three sorts
(`result_eq_error`). A failure is caused by one character, at whose offset it shows (`feed_eq_failed`), and
stays whatever follows. So the error tells whether the text has an extension that is a tree
(`parse_error_extension`).
-/

namespace Counterpart

namespace Text

/-- The error shows at the character at `offset`, which cannot stand there. -/
def ReadError.RefusedAt (e : ReadError) (offset : Nat) : Prop :=
  e = .unexpectedClose offset ∨ e = .missingKind offset ∨ e = .trailingInput offset

theorem ReadError.RefusedAt.offset?_eq {e : ReadError} {offset : Nat} (h : e.RefusedAt offset) :
    e.offset? = some offset := by
  rcases h with rfl | rfl | rfl <;> rfl

/-- The error is that the text, of the given length, is not complete: the end comes where a node or a
closing parenthesis is due, in a quoted label, or where the head of a group is due. -/
def ReadError.AtEnd (e : ReadError) (length : Nat) : Prop :=
  e = .unexpectedEnd ∨ (∃ quote, e = .unterminatedLabel quote) ∨ e = .missingKind length

/-- No error is of both sorts, unless the character refused stands behind the end. -/
theorem ReadError.RefusedAt.not_atEnd {e : ReadError} {offset length : Nat} (h : e.RefusedAt offset)
    (hlt : offset < length) : ¬ e.AtEnd length := by
  rintro (rfl | ⟨quote, rfl⟩ | rfl)
  · simp [RefusedAt] at h
  · simp [RefusedAt] at h
  · simp only [RefusedAt, reduceCtorEq, missingKind.injEq, false_or, or_false] at h
    omega

/-! ### Failures -/

theorem Pause.step_eq_failed {p : Pause} {offset : Nat} {c : Char} {e : ReadError}
    (h : p.step offset c = .failed e) : e.RefusedAt offset := by
  unfold Pause.step at h
  repeat' split at h
  all_goals cases h
  · exact .inr (.inr rfl)
  · exact .inl rfl
  · exact .inr (.inl rfl)

namespace State

variable {s : State} {p : Pause} {groups : List Frame} {offset : Nat} {e : ReadError}

/-- The reader has not failed. -/
def IsLive (s : State) : Prop :=
  ∀ e, s ≠ failed e

theorem isLive_or_failed (s : State) : s.IsLive ∨ ∃ e, s = failed e := by
  cases s with
  | failed e => exact .inr ⟨e, rfl⟩
  | _ => exact .inl nofun

theorem stepLabel_eq_failed {role : Role} {k : Kind} {latest : List Char} {c : Char}
    (h : stepLabel groups role k latest offset c = failed e) : e.RefusedAt offset := by
  unfold stepLabel at h
  split at h
  · exact Pause.step_eq_failed h
  · cases h

/-- A character that makes the reader fail is the one at which the error shows. -/
theorem step_eq_failed {c : Char} (hs : s.IsLive) (h : s.step offset c = failed e) :
    e.RefusedAt offset := by
  cases s with
  | pause p => exact Pause.step_eq_failed h
  | opened groups =>
    rw [step] at h
    split at h
    · cases h
    · split at h
      · cases h
        exact .inr (.inl rfl)
      · cases h
  | kind groups role latest =>
    rw [step] at h
    split at h
    · cases h
    · split at h
      · exact Pause.step_eq_failed h
      · cases h
  | colon groups role k =>
    rw [step] at h
    split at h
    · cases h
    · exact stepLabel_eq_failed h
  | label groups role k latest => exact stepLabel_eq_failed h
  | quoted groups role k quote escaped latest =>
    rw [step] at h
    repeat' split at h
    all_goals cases h
  | failed e => exact absurd rfl (hs e)

/-- A reader that fails does so at one character of the text. -/
theorem feed_eq_failed {cs : List Char} (hs : s.IsLive) (h : s.feed offset cs = failed e) :
    ∃ before c after, cs = before ++ c :: after ∧ e.RefusedAt (offset + byteLength before) := by
  induction cs generalizing s offset with
  | nil => exact absurd h (hs e)
  | cons c cs ih =>
    rw [feed_cons] at h
    rcases isLive_or_failed (s.step offset c) with hlive | ⟨e', hstep⟩
    · obtain ⟨before, d, after, rfl, he⟩ := ih hlive h
      refine ⟨c :: before, d, after, rfl, ?_⟩
      rwa [byteLength_cons, ← Nat.add_assoc]
    · rw [hstep, feed_failed] at h
      obtain rfl := State.failed.inj h
      exact ⟨[], c, cs, rfl, step_eq_failed hs hstep⟩

/-! ### Completions -/

/-- What is left to read can be chosen so that a tree comes out. -/
def Completes (s : State) : Prop :=
  ∀ offset, ∃ more x, s.outcome offset more = .ok x

/-- One character leads to a state that completes. -/
theorem Completes.of_step {c : Char} {s' : State} (h : s'.Completes)
    (hstep : ∀ offset, s.step offset c = s') : s.Completes := by
  intro offset
  obtain ⟨more, x, hmore⟩ := h (offset + c.utf8Size)
  exact ⟨c :: more, x, by rw [outcome_cons, hstep, hmore]⟩

/-- An open group is closed, then those around it. -/
theorem completes_group (f : Frame) (groups : List Frame) :
    (pause (.within (f :: groups))).Completes := by
  induction groups generalizing f with
  | nil =>
    refine .of_step (c := ')') ?_ fun offset => (reaches_pause _).step_close
    exact fun offset => ⟨[], f.close, rfl⟩
  | cons g groups ih =>
    exact (ih { g with latest := f.close :: g.latest }).of_step (c := ')')
      fun offset => (reaches_pause _).step_close

theorem completes_pause (p : Pause) : (pause p).Completes := by
  cases p with
  | done root => exact fun offset => ⟨[], root, rfl⟩
  | within groups =>
    cases groups with
    | nil => exact fun offset => ⟨['A'], .node ⟨⟨"A", none⟩, false⟩ [], rfl⟩
    | cons f groups => exact completes_group f groups

/-- A blank ends the atom under way. -/
theorem Reaches.completes (h : s.Reaches p) : s.Completes :=
  (completes_pause p).of_step (c := ' ') fun _ => h.step_separator (by decide)

theorem completes_quoted (groups : List Frame) (role : Role) (k : Kind) (quote : Nat) (escaped : Bool)
    (latest : List Char) : (quoted groups role k quote escaped latest).Completes := by
  have hplain : ∀ latest, (quoted groups role k quote false latest).Completes := fun latest =>
    (completes_pause (.settle groups role ⟨k, some (spell latest)⟩)).of_step (c := '"') fun _ => rfl
  cases escaped with
  | false => exact hplain latest
  | true => exact (hplain ('A' :: latest)).of_step (c := 'A') fun _ => rfl

/-- Unless it has failed, the reader can be led to the end of a tree. -/
theorem exists_completion (hs : s.IsLive) : s.Completes := by
  cases s with
  | pause p => exact completes_pause p
  | opened groups =>
    have hkind : (kind groups .head ['A']).Completes := reaches_kind.completes
    exact hkind.of_step fun offset => awaits_opened groups offset 'A' (by decide)
  | kind groups role latest => exact reaches_kind.completes
  | colon groups role k => exact reaches_colon.completes
  | label groups role k latest => exact reaches_label.completes
  | quoted groups role k quote escaped latest => exact completes_quoted groups role k quote escaped latest
  | failed e => exact absurd rfl (hs e)

/-! ### The end of the text -/

theorem ofPause_eq_error (h : ofPause p = .error e) : e = .unexpectedEnd := by
  cases p with
  | done root => cases h
  | within groups => cases h; rfl

/-- Unless the reader has failed, an error says that the text is not complete. -/
theorem result_eq_error (hs : s.IsLive) (h : s.result offset = .error e) : e.AtEnd offset := by
  cases s with
  | pause p => exact .inl (ofPause_eq_error h)
  | opened groups => cases h; exact .inr (.inr rfl)
  | kind groups role latest => exact .inl (ofPause_eq_error h)
  | colon groups role k => exact .inl (ofPause_eq_error h)
  | label groups role k latest => exact .inl (ofPause_eq_error h)
  | quoted groups role k quote escaped latest => cases h; exact .inr (.inl ⟨quote, rfl⟩)
  | failed e => exact absurd rfl (hs e)

end State

end Text

/-! ### Extensions -/

namespace Tree

open Text

variable {text : String} {e : ReadError}

theorem parse_eq_error_iff : parse text = .error e ↔ Sketch.read text = .error e := by
  unfold parse
  cases Sketch.read text with
  | error e' => simp [Except.map]
  | ok s => simp [Except.map]

/-- What the reader makes of a longer text depends on where it is at the end of the shorter one. -/
theorem read_append (text more : String) :
    Sketch.read (text ++ more) =
      (State.start.feed 0 text.toList).outcome (byteLength text.toList) more.toList := by
  rw [read_eq_outcome, String.toList_append, State.outcome_append, Nat.zero_add]

/-- A text that is not a tree is the beginning of one exactly if the error is that it is not complete. Every
other error shows at a character of the text, and no extension of the text gives another answer. -/
theorem parse_error_extension (h : parse text = .error e) :
    ((∃ more, more ≠ "" ∧ ∃ t, parse (text ++ more) = .ok t) ↔ e.AtEnd (byteLength text.toList)) ∧
    (¬ e.AtEnd (byteLength text.toList) →
      (∀ more, parse (text ++ more) = .error e) ∧
      ∃ before c after, text.toList = before ++ c :: after ∧ e.offset? = some (byteLength before)) := by
  have hstart : State.start.IsLive := nofun
  have hread : (State.start.feed 0 text.toList).result (byteLength text.toList) = .error e :=
    parse_eq_error_iff.1 h
  rcases State.isLive_or_failed (State.start.feed 0 text.toList) with hlive | ⟨e', hfailed⟩
  · have hend := State.result_eq_error hlive hread
    refine ⟨iff_of_true ?_ hend, fun hnot => absurd hend hnot⟩
    obtain ⟨more, x, hmore⟩ := State.exists_completion hlive (byteLength text.toList)
    have hread' : Sketch.read (text ++ String.ofList more) = .ok x := by
      rw [read_append, String.toList_ofList, hmore]
    refine ⟨String.ofList more, fun hempty => ?_, _, parse_eq_ok_iff.2 ⟨x, hread', rfl⟩⟩
    rw [hempty, String.append_empty, parse_eq_error_iff.1 h] at hread'
    cases hread'
  · rw [hfailed] at hread
    obtain rfl : e' = e := Except.error.inj hread
    have hsame : ∀ more, parse (text ++ more) = .error e' := by
      intro more
      rw [parse_eq_error_iff, read_append, hfailed, State.outcome_failed]
    obtain ⟨before, c, after, hsplit, hrefused⟩ := State.feed_eq_failed hstart hfailed
    rw [Nat.zero_add] at hrefused
    have hinside : byteLength before < byteLength text.toList := by
      have hsize := c.utf8Size_pos
      rw [hsplit, byteLength_append, byteLength_cons]
      omega
    refine ⟨iff_of_false ?_ (hrefused.not_atEnd hinside), fun _ => ⟨hsame, ?_⟩⟩
    · rintro ⟨more, -, t, ht⟩
      rw [hsame more] at ht
      cases ht
    · exact ⟨before, c, after, hsplit, hrefused.offset?_eq⟩

/-- A text that ends inside two groups and a quoted label, after a backslash, can be mended; one with a second
root cannot. -/
theorem cutOff_extends :
    (parse "(A (B:\"x\\" = .error (.unterminatedLabel 6) ∧
      ∃ more, more ≠ "" ∧ ∃ t, parse ("(A (B:\"x\\" ++ more) = .ok t) ∧
    ∀ more, parse ("(A) B" ++ more) = .error (.trailingInput 4) := by
  have hcut : parse "(A (B:\"x\\" = .error (.unterminatedLabel 6) := rfl
  have hroots : parse "(A) B" = .error (.trailingInput 4) := rfl
  refine ⟨⟨hcut, (parse_error_extension hcut).1.2 (.inr (.inl ⟨6, rfl⟩))⟩, ?_⟩
  exact ((parse_error_extension hroots).2 (by simp [ReadError.AtEnd])).1

end Tree

end Counterpart
