import Lookahead.Text.Identifier

/-!
# Lexemes

A grammar text is cut into **lexemes** from left to right.  What a lexeme is, is settled by its
first character or, behind a slash, by its first two:

* blanks are the space, the tab and the form feed, as many as there are in a row;
* a line feed is a lexeme by itself;
* `//` begins a comment up to the end of the line, and `/*` one up to the next `*/`;
* the marks `% : ; | ( ) ? * +` are tokens of one character;
* a quote begins a literal up to the next equal quote that no backslash stands in front of; a
  backslash takes the character behind it along, whatever it is, a line feed too;
* a character that may start an identifier takes along all that may continue one.

Where none of this applies there is no lexeme, and the text is refused.  `furtherChars?` says how
many characters a lexeme takes along behind its first one, so a lexeme is never empty and cutting
a text into lexemes comes to an end.
-/

namespace Lookahead

/-- The kinds of tokens. -/
inductive TokenKind where
  | percent
  | colon
  | semicolon
  | bar
  | leftParen
  | rightParen
  | question
  | star
  | plus
  | doubleQuoted
  | singleQuoted
  | identifier
  | endOfText
deriving DecidableEq, Repr, Inhabited

/-- The name of a kind of token in messages. -/
def TokenKind.label : TokenKind → String
  | percent => "PERCENT"
  | colon => "COLON"
  | semicolon => "SEMI"
  | bar => "OR"
  | leftParen => "LPAREN"
  | rightParen => "RPAREN"
  | question => "QMARK"
  | star => "STAR"
  | plus => "PLUS"
  | doubleQuoted => "STRING"
  | singleQuoted => "SSTRING"
  | identifier => "IDENT"
  | endOfText => "EOF"

/-- What a lexeme is: a token, or something between tokens. -/
inductive LexemeClass where
  | blank
  | lineEnd
  | comment
  | token (kind : TokenKind)
deriving DecidableEq, Repr

namespace LexemeClass

/-- Whether the character is a blank. -/
def isBlank (c : Char) : Bool := c == ' ' || c == '\t' || c == '\x0c'

/-- The length of a block comment, counted from behind its `/*`. -/
def blockCommentLength? : List Char → Option Nat
  | [] => none
  | c :: cs =>
    if c = '*' ∧ cs.head? = some '/' then some 2 else (blockCommentLength? cs).map (· + 1)

/-- The length of a literal, counted from behind its opening quote. -/
def quotedLength? (quote : Char) : List Char → Option Nat
  | [] => none
  | [c] => if c = quote then some 1 else none
  | c :: d :: cs =>
    if c = quote then some 1
    else if c = '\\' then (quotedLength? quote cs).map (· + 2)
    else (quotedLength? quote (d :: cs)).map (· + 1)

/-- The token that consists of the character alone. -/
def single? (c : Char) : Option TokenKind :=
  match c with
  | '%' => some .percent
  | ':' => some .colon
  | ';' => some .semicolon
  | '|' => some .bar
  | '(' => some .leftParen
  | ')' => some .rightParen
  | '?' => some .question
  | '*' => some .star
  | '+' => some .plus
  | _ => none

/-- The lexeme at the head of a text: its class, and how many characters it takes along behind
the first. -/
def furtherChars? (c : Char) (cs : List Char) : Option (LexemeClass × Nat) :=
  if isBlank c then some (blank, (cs.takeWhile isBlank).length)
  else if c = '\n' then some (lineEnd, 0)
  else if c = '/' then
    match cs with
    | '/' :: cs => some (comment, (cs.takeWhile (· ≠ '\n')).length + 1)
    | '*' :: cs => (blockCommentLength? cs).map fun n => (comment, n + 1)
    | _ => none
  else if c = '"' then (quotedLength? c cs).map (token .doubleQuoted, ·)
  else if c = '\'' then (quotedLength? c cs).map (token .singleQuoted, ·)
  else if Text.isIdentStart c then
    some (token .identifier, (cs.takeWhile Text.isIdentContinue).length)
  else (single? c).map (token ·, 0)

end LexemeClass

end Lookahead
