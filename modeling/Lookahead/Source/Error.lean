import Lookahead.Source.Token
import Lookahead.Text.Literal
import Lookahead.Text.Quoted

/-!
# What can be wrong with a grammar text

A text is refused at one place, and the message shows it: the line, and a caret.  Three faults
have a place of their own (`SourceError.offset?`): an unexpected character or token is shown where
it begins, and a missing semicolon where it is missing, behind the last token of the clause.  A
literal that denotes no text is refused without a message.
-/

namespace Lookahead

open Text (Position Excerpt LiteralFault quoted)

/-- What a semicolon has to stand behind. -/
inductive Clause where
  /-- A list of declared terminals. -/
  | tokens
  /-- The declaration of the start symbol. -/
  | start
  /-- The rule of that name. -/
  | rule (name : String)
deriving DecidableEq, Repr

namespace Clause

/-- A clause as messages name it. -/
def describe : Clause → String
  | tokens => "%token declaration"
  | start => "%start declaration"
  | rule name => "rule '" ++ name ++ "'"

/-- What such a clause looks like. -/
def specimen : Clause → String
  | tokens => "%token NUMBER IDENT;"
  | start => "%start StartSymbol;"
  | rule name => name ++ " : ... ;"

end Clause

/-- Why a grammar text is refused. -/
inductive SourceError where
  /-- No lexeme begins with the character. -/
  | unexpectedChar (char : Char) (place : Position)
  /-- A percent sign is not followed by the name of a directive. -/
  | noDirective (found : Token)
  /-- There is no directive of that name. -/
  | unknownDirective (found : Token)
  /-- Only one kind of token can stand here, and it does not. -/
  | expected (kind : TokenKind) (found : Token)
  /-- A clause is not closed by a semicolon; `behind` is the offset behind its last token. -/
  | missingSemicolon (clause : Clause) (behind : Nat) (found : Token)
  /-- A literal denotes no text. -/
  | literal (fault : LiteralFault) (found : Token)
deriving DecidableEq, Repr

namespace SourceError

/-- The offset that the message points at. -/
def offset? : SourceError → Option Nat
  | unexpectedChar _ p => some p.offset
  | noDirective t => some t.start.offset
  | unknownDirective t => some t.start.offset
  | expected _ t => some t.start.offset
  | missingSemicolon _ behind _ => some behind
  | literal .. => none

/-- The sentence of a message, up to the excerpt. -/
def headline : SourceError → String
  | unexpectedChar c p => "Unexpected char " ++ quoted c.toString ++ " at " ++ p.render ++ "\n"
  | noDirective t => "Expected directive name after '%', got " ++ t.renderAt ++ "\n"
  | unknownDirective t =>
    "Unknown directive %" ++ t.lexeme ++ " at " ++ t.start.render ++ "\n"
  | expected kind t => "Expected " ++ kind.label ++ ", got " ++ t.renderAt ++ "\n"
  | missingSemicolon clause _ t =>
    "Missing ';' after " ++ clause.describe ++ " (semicolon is mandatory).\n- Found: " ++
      t.renderAt ++ "\n- Example: " ++ clause.specimen ++ "\n\n"
  | literal .. => ""

/-- The message for a fault of the given text. -/
def message? (text : List Char) (e : SourceError) : Option String :=
  e.offset?.map fun offset => e.headline ++ (Excerpt.ofOffset text offset).render

end SourceError

end Lookahead
