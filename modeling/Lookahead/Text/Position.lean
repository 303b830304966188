/-!
# Places in a text

A line may end in a line feed, in a carriage return, or in the two of them in a row.  Texts are
compared and measured with the line feed as the only line end, so the other two are replaced
before anything else is looked at (`unifyNewlines`).

A place is counted in characters: its **offset** is the number of characters before it, its
**line** one more than the number of line feeds before it, and its **column** one more than the
number of characters since the last of them.  `Position.advance` moves a place over a stretch of
text, and moving over two stretches in a row is moving over their concatenation
(`advance_append`), so a reader may count as it goes and still finds the place that the definition
says (`advance_start`).  What a place is, is said in one sentence by `Position.Locates`.

An `Excerpt` shows a place: the whole line it lies in, and a caret under the character at it.  What
it has to show is said by the line number and the column of the place (`Position.IsShownBy`).
-/

namespace Lookahead.Text

/-! ## 1. Line ends -/

/-- The text with every line end written as a line feed. -/
def unifyNewlines : List Char → List Char
  | [] => []
  | '\r' :: '\n' :: cs => '\n' :: unifyNewlines cs
  | '\r' :: cs => '\n' :: unifyNewlines cs
  | c :: cs => c :: unifyNewlines cs

/-- A text without carriage returns is left as it is. -/
theorem unifyNewlines_eq_self {cs : List Char} (h : '\r' ∉ cs) : unifyNewlines cs = cs := by
  induction cs with
  | nil => rfl
  | cons c cs ih =>
    simp only [List.mem_cons, not_or] at h
    rw [unifyNewlines.eq_4 _ _ (fun _ e _ => h.1 e.symm) (fun e => h.1 e.symm), ih h.2]

/-! ## 2. Places -/

/-- A place in a text; lines and columns count from one. -/
structure Position where
  offset : Nat
  line : Nat
  column : Nat
deriving DecidableEq, Repr, Inhabited

namespace Position

/-- The place in front of the first character. -/
def start : Position := ⟨0, 1, 1⟩

/-- The place behind one more character. -/
def next (p : Position) (c : Char) : Position :=
  if c = '\n' then ⟨p.offset + 1, p.line + 1, 1⟩ else ⟨p.offset + 1, p.line, p.column + 1⟩

/-- The place behind a stretch of text. -/
def advance (p : Position) (cs : List Char) : Position := cs.foldl next p

@[simp] theorem advance_nil (p : Position) : p.advance [] = p := rfl

@[simp] theorem advance_cons (p : Position) (c : Char) (cs : List Char) :
    p.advance (c :: cs) = (p.next c).advance cs := rfl

theorem advance_append (p : Position) (cs ds : List Char) :
    p.advance (cs ++ ds) = (p.advance cs).advance ds := List.foldl_append

/-- The place behind a text, counted all at once. -/
def behind (cs : List Char) : Position where
  offset := cs.length
  line := cs.count '\n' + 1
  column := (cs.reverse.takeWhile (· ≠ '\n')).length + 1

theorem behind_append_singleton (cs : List Char) (c : Char) :
    behind (cs ++ [c]) = (behind cs).next c := by
  by_cases h : c = '\n'
  · subst h
    simp [behind, next]
  · simp [behind, next, h]

/-- Counting as one goes comes to the same as counting all at once. -/
theorem advance_start (cs : List Char) : start.advance cs = behind cs := by
  rw [← List.reverse_reverse cs]
  induction cs.reverse with
  | nil => rfl
  | cons c cs ih =>
    rw [List.reverse_cons, advance_append, ih, behind_append_singleton, advance_cons, advance_nil]

theorem advance_behind (cs ds : List Char) : (behind cs).advance ds = behind (cs ++ ds) := by
  rw [← advance_start, ← advance_start, advance_append]

/-- The place is one of the text.  It lies in a line that begins with the text or behind a line feed;
`earlier` is all in front of that line, and `line` is the part of it in front of the place. -/
def Locates (p : Position) (text : List Char) : Prop :=
  ∃ earlier line after, text = earlier ++ line ++ after ∧
    (earlier = [] ∨ ['\n'] <:+ earlier) ∧ '\n' ∉ line ∧
    p = ⟨(earlier ++ line).length, earlier.count '\n' + 1, line.length + 1⟩

/-- The line of that number, and under it a caret in that column. -/
def IsShownBy (p : Position) (text : List Char) (shown : String) : Prop :=
  ∃ line, (text.splitOn '\n')[p.line - 1]? = some line ∧
    shown = String.ofList (line ++ '\n' :: List.replicate (p.column - 1) ' ' ++ ['^'])

/-- A place as messages name it: line, colon, column. -/
def render (p : Position) : String := toString p.line ++ ":" ++ toString p.column

end Position

/-- The line that a place lies in, cut in two at the place. -/
structure Excerpt where
  before : List Char
  after : List Char
deriving DecidableEq, Repr

namespace Excerpt

/-- The line of a text that holds the given offset. -/
def ofOffset (text : List Char) (offset : Nat) : Excerpt where
  before := ((text.take offset).reverse.takeWhile (· ≠ '\n')).reverse
  after := (text.drop offset).takeWhile (· ≠ '\n')

/-- The line, and under it a caret at the place. -/
def render (e : Excerpt) : String :=
  String.ofList (e.before ++ e.after ++ '\n' :: List.replicate e.before.length ' ' ++ ['^'])

end Excerpt

end Lookahead.Text
