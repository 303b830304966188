import Lookahead.Source.Token

/-!
# The grammar of grammar texts

The language of grammar texts has a grammar of its own, over tokens.  Directives come first and
rules behind them, each closed by a semicolon.  The body of a rule is an expression: sequences
with bars between them; a sequence is any number of atoms; an atom is a name, a literal or an
expression in parentheses, with at most one suffix.

This module states that grammar and nothing else: `IsGrammarText` says which lists of tokens are
grammar texts, without reading them.  It depends on the kinds of the tokens, and on the letters of
the name behind a percent sign.
-/

namespace Lookahead

/-- The parts of the body of a rule. -/
inductive PhraseClass where
  | expression
  | sequence
  | atom
  /-- An atom without its suffix. -/
  | base
deriving DecidableEq, Repr

/-- The lists of token kinds that are phrases of each class. -/
inductive IsPhrase : PhraseClass → List TokenKind → Prop
  | name : IsPhrase .base [.identifier]
  | doubleQuoted : IsPhrase .base [.doubleQuoted]
  | singleQuoted : IsPhrase .base [.singleQuoted]
  | group {ks : List TokenKind} (h : IsPhrase .expression ks) :
      IsPhrase .base (.leftParen :: (ks ++ [.rightParen]))
  | once {ks : List TokenKind} (h : IsPhrase .base ks) : IsPhrase .atom ks
  | suffixed {ks : List TokenKind} {k : TokenKind} (h : IsPhrase .base ks)
      (hk : k ∈ [.question, .star, .plus]) : IsPhrase .atom (ks ++ [k])
  | empty : IsPhrase .sequence []
  | cons {ks ls : List TokenKind} (h : IsPhrase .atom ks) (h' : IsPhrase .sequence ls) :
      IsPhrase .sequence (ks ++ ls)
  | last {ks : List TokenKind} (h : IsPhrase .sequence ks) : IsPhrase .expression ks
  | bar {ks ls : List TokenKind} (h : IsPhrase .sequence ks) (h' : IsPhrase .expression ls) :
      IsPhrase .expression (ks ++ .bar :: ls)

/-- A directive that declares terminals. -/
def IsTokenDirective (ts : List Token) : Prop :=
  ∃ percent keyword names semicolon, ts = percent :: keyword :: (names ++ [semicolon]) ∧
    percent.kind = .percent ∧ keyword.kind = .identifier ∧ keyword.lexeme = "token" ∧
    names ≠ [] ∧ (∀ n ∈ names, n.kind = .identifier) ∧ semicolon.kind = .semicolon

/-- A directive that declares the start symbol. -/
def IsStartDirective (ts : List Token) : Prop :=
  ∃ percent keyword name semicolon, ts = [percent, keyword, name, semicolon] ∧
    percent.kind = .percent ∧ keyword.kind = .identifier ∧ keyword.lexeme = "start" ∧
    name.kind = .identifier ∧ semicolon.kind = .semicolon

/-- A rule. -/
def IsRule (ts : List Token) : Prop :=
  ∃ name colon body semicolon, ts = name :: colon :: (body ++ [semicolon]) ∧
    name.kind = .identifier ∧ colon.kind = .colon ∧
    IsPhrase .expression (body.map (·.kind)) ∧ semicolon.kind = .semicolon

/-- Directives and then rules. -/
def IsGrammarText (ts : List Token) : Prop :=
  ∃ directives rules : List (List Token), ts = directives.flatten ++ rules.flatten ∧
    (∀ d ∈ directives, IsTokenDirective d ∨ IsStartDirective d) ∧ ∀ r ∈ rules, IsRule r

namespace IsPhrase

/-- Two sequences in a row are a sequence. -/
theorem append {ks ls : List TokenKind} (h : IsPhrase .sequence ks)
    (h' : IsPhrase .sequence ls) : IsPhrase .sequence (ks ++ ls) := by
  generalize hc : PhraseClass.sequence = c at h
  induction h with
  | empty => exact h'
  | cons ha _ _ ih =>
    rw [List.append_assoc]
    exact .cons ha (ih hc)
  | _ => cases hc

/-- An atom is a sequence. -/
theorem sequence_of_atom {ks : List TokenKind} (h : IsPhrase .atom ks) :
    IsPhrase .sequence ks := by
  simpa using IsPhrase.cons h .empty

end IsPhrase

end Lookahead
