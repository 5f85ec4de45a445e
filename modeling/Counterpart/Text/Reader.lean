import Counterpart.Term
import Counterpart.Text.Blank

/-!
# Reading the text form of a tree

A node is written as an atom, `Kind` or `Kind:label`, or as a group, `(atom node ...)`. A label is
a run without separators and parentheses, or any text in double quotes in which a backslash makes
the next character literal.

Reading is a single pass: `State.step` takes one character, `State.result` says what the end of the
text means. A failure is kept to the end (`State.feed_failed`), so what is wrong is decided by the
shortest beginning of the text that shows it.
-/

namespace Counterpart.Text

/-- The number of bytes that characters take in UTF-8. -/
def byteLength : List Char → Nat
  | [] => 0
  | c :: cs => c.utf8Size + byteLength cs

@[simp] theorem byteLength_nil : byteLength [] = 0 := rfl

@[simp] theorem byteLength_cons (c : Char) (cs : List Char) :
    byteLength (c :: cs) = c.utf8Size + byteLength cs := rfl

theorem byteLength_append (cs ds : List Char) :
    byteLength (cs ++ ds) = byteLength cs + byteLength ds := by
  induction cs with
  | nil => simp
  | cons c cs ih => rw [List.cons_append, byteLength_cons, byteLength_cons, ih, Nat.add_assoc]

/-- What is wrong with a text, with the byte offset where it shows. -/
inductive ReadError where
  /-- The text ends where a node or a closing parenthesis is due. -/
  | unexpectedEnd
  /-- A closing parenthesis where a node is due. -/
  | unexpectedClose (offset : Nat)
  /-- An atom without a kind. -/
  | missingKind (offset : Nat)
  /-- The quote at the offset has no partner. -/
  | unterminatedLabel (offset : Nat)
  /-- The root is complete and something other than blanks follows. -/
  | trailingInput (offset : Nat)
  deriving DecidableEq

namespace ReadError

/-- The offset at which the error shows. -/
def offset? : ReadError → Option Nat
  | unexpectedEnd => none
  | unexpectedClose n | missingKind n | unterminatedLabel n | trailingInput n => some n

/-- The wording of an error. -/
def message : ReadError → String
  | unexpectedEnd => "unexpected end of input"
  | unexpectedClose n => "unexpected closing parenthesis at byte " ++ toString n
  | missingKind n => "expected a node kind at byte " ++ toString n
  | unterminatedLabel n => "unterminated quoted label starting at byte " ++ toString n
  | trailingInput n => "trailing input at byte " ++ toString n

end ReadError

/-- A node as it was written: its atom, and whether it stood in parentheses. -/
structure Written where
  atom : Atom
  grouped : Bool
  deriving DecidableEq

/-- A tree as it was written. -/
abbrev Sketch := Rose Written

/-- The term that a sketch writes. -/
def Sketch.term : Sketch → Term :=
  Rose.map Written.atom

/-- A group whose closing parenthesis is still to come. -/
structure Frame where
  head : Atom
  /-- The nodes read below the head so far, the latest first. -/
  latest : List Sketch
  deriving DecidableEq

/-- The group once it is closed. -/
def Frame.close (f : Frame) : Sketch :=
  .node ⟨f.head, true⟩ f.latest.reverse

/-- What an atom under way is going to be. -/
inductive Role where
  /-- The head of a group. -/
  | head
  /-- A node of its own. -/
  | leaf
  deriving DecidableEq

/-- The situation between two nodes. -/
inductive Pause where
  /-- The innermost open group comes first; without one the root is due. -/
  | within (groups : List Frame)
  /-- The root is complete. -/
  | done (root : Sketch)
  deriving DecidableEq

namespace Pause

/-- Put a complete node in its place. -/
def attach (groups : List Frame) (node : Sketch) : Pause :=
  match groups with
  | [] => done node
  | f :: fs => within ({ f with latest := node :: f.latest } :: fs)

/-- Put a complete atom in its place. -/
def settle (groups : List Frame) (role : Role) (a : Atom) : Pause :=
  match role with
  | .head => within (⟨a, []⟩ :: groups)
  | .leaf => attach groups (.node ⟨a, false⟩ [])

end Pause

/-- How far a text has been read. -/
inductive State where
  | pause (p : Pause)
  /-- After an opening parenthesis, before the head of the group. -/
  | opened (groups : List Frame)
  /-- In a kind; its characters so far, the latest first. -/
  | kind (groups : List Frame) (role : Role) (latest : List Char)
  /-- After the colon. -/
  | colon (groups : List Frame) (role : Role) (kind : Kind)
  /-- In a label without quotes; its characters so far, the latest first. -/
  | label (groups : List Frame) (role : Role) (kind : Kind) (latest : List Char)
  /-- In a quoted label; the offset of its quote, whether a backslash precedes, and its characters
  so far, the latest first. -/
  | quoted (groups : List Frame) (role : Role) (kind : Kind) (quote : Nat) (escaped : Bool)
      (latest : List Char)
  | failed (e : ReadError)
  deriving DecidableEq

/-- Take a character between two nodes. -/
def Pause.step (p : Pause) (offset : Nat) (c : Char) : State :=
  if isSeparator c then .pause p
  else
    match p with
    | .done _ => .failed (.trailingInput offset)
    | .within groups =>
      if c = '(' then .opened groups
      else if c = ')' then
        match groups with
        | [] => .failed (.unexpectedClose offset)
        | f :: fs => .pause (attach fs f.close)
      else if c = ':' then .failed (.missingKind offset)
      else .kind groups .leaf [c]

namespace State

/-- The text of the characters read last. -/
def spell (latest : List Char) : String :=
  String.ofList latest.reverse

/-- Take a character in a label without quotes. -/
def stepLabel (groups : List Frame) (role : Role) (kind : Kind) (latest : List Char)
    (offset : Nat) (c : Char) : State :=
  if isSeparator c || isParen c then
    (Pause.settle groups role ⟨kind, some (spell latest)⟩).step offset c
  else .label groups role kind (c :: latest)

/-- Take the character `c`, which stands at `offset`. -/
def step (s : State) (offset : Nat) (c : Char) : State :=
  match s with
  | pause p => p.step offset c
  | opened groups =>
    if isSeparator c then opened groups
    else if isParen c || c == ':' then failed (.missingKind offset)
    else kind groups .head [c]
  | kind groups role latest =>
    if c = ':' then colon groups role (spell latest)
    else if isSeparator c || isParen c then
      (Pause.settle groups role ⟨spell latest, none⟩).step offset c
    else kind groups role (c :: latest)
  | colon groups role k =>
    if c = '"' then quoted groups role k offset false []
    else stepLabel groups role k [] offset c
  | label groups role k latest => stepLabel groups role k latest offset c
  | quoted groups role k quote escaped latest =>
    if escaped then quoted groups role k quote false (c :: latest)
    else if c = '\\' then quoted groups role k quote true latest
    else if c = '"' then pause (Pause.settle groups role ⟨k, some (spell latest)⟩)
    else quoted groups role k quote false (c :: latest)
  | failed e => failed e

/-- What the end of the text means between two nodes. -/
def ofPause : Pause → Except ReadError Sketch
  | .done root => .ok root
  | .within _ => .error .unexpectedEnd

/-- What the end of the text, at `offset`, means. -/
def result (s : State) (offset : Nat) : Except ReadError Sketch :=
  match s with
  | pause p => ofPause p
  | opened _ => .error (.missingKind offset)
  | kind groups role latest => ofPause (.settle groups role ⟨spell latest, none⟩)
  | colon groups role k => ofPause (.settle groups role ⟨k, some ""⟩)
  | label groups role k latest => ofPause (.settle groups role ⟨k, some (spell latest)⟩)
  | quoted _ _ _ quote _ _ => .error (.unterminatedLabel quote)
  | failed e => .error e

/-- Take the characters that stand from `offset` on. -/
def feed (s : State) (offset : Nat) : List Char → State
  | [] => s
  | c :: cs => (s.step offset c).feed (offset + c.utf8Size) cs

/-- The situation at the beginning of a text: the root is due. -/
def start : State :=
  pause (.within [])

@[simp] theorem feed_nil (s : State) (offset : Nat) : s.feed offset [] = s := rfl

@[simp] theorem feed_cons (s : State) (offset : Nat) (c : Char) (cs : List Char) :
    s.feed offset (c :: cs) = (s.step offset c).feed (offset + c.utf8Size) cs := rfl

/-- Reading one text after another is reading the second from where the first one ends. -/
theorem feed_append (s : State) (offset : Nat) (cs ds : List Char) :
    s.feed offset (cs ++ ds) = (s.feed offset cs).feed (offset + byteLength cs) ds := by
  induction cs generalizing s offset with
  | nil => rfl
  | cons c cs ih =>
    rw [List.cons_append, feed_cons, ih, feed_cons, byteLength_cons, Nat.add_assoc]

/-- A failure is not mended by anything that follows. -/
@[simp] theorem feed_failed (e : ReadError) (offset : Nat) (cs : List Char) :
    (failed e).feed offset cs = failed e := by
  induction cs generalizing offset with
  | nil => rfl
  | cons c cs ih => exact ih _

end State

/-- Read a text as a tree. -/
def Sketch.read (text : String) : Except ReadError Sketch :=
  (State.start.feed 0 text.toList).result (byteLength text.toList)

end Counterpart.Text
