import Lookahead.Text.Basic
import Lookahead.Text.Classes

/-!
# Quoting

Messages show names between quotes, so that blanks, control characters and the quotes themselves
can be told apart.  The written form is the one that the grammar language reads back as a literal:

1. the quote is `'`, unless the text holds a `'` and no `"`; then it is `"`;
2. the backslash and the quote in use are written behind a backslash;
3. the line feed, the carriage return and the tab are written `\n`, `\r` and `\t`;
4. another character that is not printable is written by its number, as `\x` with two, `\u` with
   four or `\U` with eight lower-case hexadecimal digits, the shortest form that fits, and so is a
   surrogate;
5. every other character stands for itself.
-/

namespace Lookahead.Text

/-- The quote that goes around a text. -/
def quoteFor (t : Text) : Char :=
  if t.hasChar '\'' && !t.hasChar '"' then '"' else '\''

theorem quoteFor_eq_or (t : Text) : quoteFor t = '\'' ∨ quoteFor t = '"' := by
  unfold quoteFor; split <;> simp

/-- The written form of one character between the given quotes. -/
def escape (quote c : Char) : List Char :=
  if c = quote ∨ c = '\\' then ['\\', c]
  else if c = '\n' then ['\\', 'n']
  else if c = '\r' then ['\\', 'r']
  else if c = '\t' then ['\\', 't']
  else if isPrintable c then [c]
  else if c.toNat < 0x100 then '\\' :: 'x' :: numeral 16 2 c.toNat
  else if c.toNat < 0x10000 then '\\' :: 'u' :: numeral 16 4 c.toNat
  else '\\' :: 'U' :: numeral 16 8 c.toNat

/-- The written form of one code point between the given quotes. -/
def escapeCode (quote : Char) (c : CodePoint) : List Char :=
  match c.char? with
  | some d => escape quote d
  | none => '\\' :: 'u' :: numeral 16 4 c.val

/-- The written form of a text, quotes included. -/
def quotedChars (t : Text) : List Char :=
  quoteFor t :: t.codes.flatMap (escapeCode (quoteFor t)) ++ [quoteFor t]

/-- A text in quotes. -/
def quoted (t : Text) : String := String.ofList (quotedChars t)

/-- A list of texts, each in quotes, between square brackets. -/
def quotedList (ts : List Text) : String :=
  "[" ++ String.intercalate ", " (ts.map quoted) ++ "]"

end Lookahead.Text
