import Lookahead.Source.Lexeme
import Lookahead.Text.Basic
import Lookahead.Text.Position

/-!
# Tokens

The tokens of a text are its lexemes without the blanks, line ends and comments, each with its
place.  `scan` finds them.  It counts places as it goes, so the place of a token is the place
behind all text in front of it; the place behind the last lexeme closes the list, as the token
`endOfText`.
-/

namespace Lookahead

open Text (Position)

/-- A token: its kind, its letters, the place of its first character and the offset behind its
last one. -/
structure Token where
  kind : TokenKind
  lexeme : String
  start : Position
  stop : Nat
deriving DecidableEq, Repr, Inhabited

namespace Token

/-- The token that stands for the end of a text. -/
def endAt (p : Position) : Token := ⟨.endOfText, "", p, p.offset⟩

/-- The letters of a token, as the name of a symbol. -/
def name (t : Token) : Text := t.lexeme

/-- A token as messages name it: its kind and place. -/
def renderAt (t : Token) : String := t.kind.label ++ " at " ++ t.start.render

end Token

/-- The tokens of a text and, apart from them, the end of the text. -/
structure TokenList where
  tokens : List Token
  close : Token
deriving DecidableEq, Repr, Inhabited

namespace TokenList

/-- All tokens, the end of the text being the last. -/
def toList (t : TokenList) : List Token := t.tokens ++ [t.close]

/-- One more token in front. -/
def cons (t : Token) (ts : TokenList) : TokenList := ⟨t :: ts.tokens, ts.close⟩

/-- A lexeme in front: a token is kept, anything else is not. -/
def consLexeme (cls : LexemeClass) (lexeme : List Char) (start stop : Position)
    (ts : TokenList) : TokenList :=
  match cls with
  | .token kind => ts.cons ⟨kind, String.ofList lexeme, start, stop.offset⟩
  | _ => ts

/-- The tokens of a text that begins at the given place; or the first character that no lexeme
starts with, and its place. -/
def scanFrom (p : Position) : List Char → Except (Char × Position) TokenList
  | [] => .ok ⟨[], Token.endAt p⟩
  | c :: cs =>
    match LexemeClass.furtherChars? c cs with
    | none => .error (c, p)
    | some (cls, n) =>
      let lexeme := c :: cs.take n
      let stop := p.advance lexeme
      (scanFrom stop (cs.drop n)).map (consLexeme cls lexeme p stop)
termination_by cs => cs.length
decreasing_by simp only [List.length_drop, List.length_cons]; omega

/-- The tokens of a text. -/
def scan (text : List Char) : Except (Char × Position) TokenList := scanFrom .start text

end TokenList

end Lookahead
