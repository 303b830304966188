import Lookahead.Source.Token

/-!
# What lexemes look like

`LexemeClass.furtherChars?` finds a lexeme; this module says what one is.  `IsLexeme` relates a
class to the stretches of text that belong to it, without a word on how they are found or on what
stands behind them.  Of the stretches that a text begins with, at most one class has any, and the
longest of that class is the lexeme that is taken (`IsNextLexeme`).

A text is cut by taking one lexeme after the other, until no lexeme begins what is left; nothing is
left if the text is well-formed (`IsCut`).  The tokens of a text are the lexemes of a token class,
each at its place (`tokensBehind`).
-/

namespace Lookahead

namespace LexemeClass

/-- The inside of a literal between two given quotes: a backslash goes with the character behind
it, and no quote stands alone. -/
inductive IsQuotedBody (quote : Char) : List Char → Prop
  | nil : IsQuotedBody quote []
  | plain {c : Char} {cs : List Char} (hq : c ≠ quote) (hb : c ≠ '\\')
      (h : IsQuotedBody quote cs) : IsQuotedBody quote (c :: cs)
  | pair (c : Char) {cs : List Char} (h : IsQuotedBody quote cs) :
      IsQuotedBody quote ('\\' :: c :: cs)

/-- The stretches of text that are lexemes of each class. -/
inductive IsLexeme : LexemeClass → List Char → Prop
  | blank {c : Char} {cs : List Char} (h : ∀ d ∈ c :: cs, isBlank d = true) :
      IsLexeme .blank (c :: cs)
  | lineEnd : IsLexeme .lineEnd ['\n']
  | lineComment {cs : List Char} (h : '\n' ∉ cs) : IsLexeme .comment ('/' :: '/' :: cs)
  | blockComment {cs : List Char} (h : ¬ ['*', '/'] <:+: cs) :
      IsLexeme .comment ('/' :: '*' :: (cs ++ ['*', '/']))
  | single {c : Char} {kind : TokenKind} (h : single? c = some kind) : IsLexeme (.token kind) [c]
  | doubleQuoted {cs : List Char} (h : IsQuotedBody '"' cs) :
      IsLexeme (.token .doubleQuoted) ('"' :: (cs ++ ['"']))
  | singleQuoted {cs : List Char} (h : IsQuotedBody '\'' cs) :
      IsLexeme (.token .singleQuoted) ('\'' :: (cs ++ ['\'']))
  | identifier {c : Char} {cs : List Char} (h : Text.isIdentStart c = true)
      (h' : ∀ d ∈ cs, Text.isIdentContinue d = true) : IsLexeme (.token .identifier) (c :: cs)

/-- A text begins with a lexeme of some class. -/
def BeginsLexeme (text : List Char) : Prop := ∃ cls cs, IsLexeme cls cs ∧ cs <+: text

/-- The stretch is the lexeme that is taken in front of the rest of a text: whatever lexeme is there,
it is of the same class and no longer. -/
def IsNextLexeme (cls : LexemeClass) (cs rest : List Char) : Prop :=
  IsLexeme cls cs ∧
    ∀ cls' ds, IsLexeme cls' ds → ds <+: cs ++ rest → cls' = cls ∧ ds.length ≤ cs.length

end LexemeClass

/-- A stretch of a text, with its class. -/
structure Lexeme where
  cls : LexemeClass
  chars : List Char
deriving DecidableEq, Repr

/-- The text is cut from left to right into lexemes and a rest that begins with none. -/
inductive IsCut : List Char → List Lexeme → List Char → Prop
  | stop {rest : List Char} (h : ¬ LexemeClass.BeginsLexeme rest) : IsCut rest [] rest
  | cons {cls : LexemeClass} {cs text rest : List Char} {lexemes : List Lexeme}
      (h : LexemeClass.IsNextLexeme cls cs text) (h' : IsCut text lexemes rest) :
      IsCut (cs ++ text) (⟨cls, cs⟩ :: lexemes) rest

/-- The token that a lexeme behind the given text is, if it is one. -/
def Lexeme.token? (before : List Char) (l : Lexeme) : Option Token :=
  match l.cls with
  | .token kind =>
    some ⟨kind, String.ofList l.chars, .behind before, (before ++ l.chars).length⟩
  | _ => none

/-- The tokens among lexemes that stand in a row behind the given text. -/
def tokensBehind (before : List Char) : List Lexeme → List Token
  | [] => []
  | l :: lexemes => (l.token? before).toList ++ tokensBehind (before ++ l.chars) lexemes

end Lookahead
