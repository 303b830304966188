import Lookahead.Source.Reader

/-!
# Writing a declaration

A declaration is written down in two stages.  First it becomes a list of **pieces**: what its
tokens are to say, without letters or places.  A token says a piece too (`Token.piece`), a literal
saying the text that it denotes, so what is read can be compared with what is written.

Then each piece is spelled (`Piece.spelling`), a literal by quoting its text, and the spellings are
set one behind the other with **gaps** between them: blanks, line ends and comments, in any
mixture (`IsSpaced`).  One declaration has many texts, which differ in their gaps only.

A declaration that is read from a text also knows where its parts stand there; `withoutSpans`
forgets that.
-/

namespace Lookahead

open Text (literal quotedChars)

/-! ## 1. Pieces -/

/-- What a token says. -/
inductive Piece where
  | mark (kind : TokenKind)
  | name (name : Name)
  | literal (text : Name)
deriving DecidableEq, Repr, Inhabited

/-- What a token says.  A literal that denotes nothing says only that it is one. -/
def Token.piece [Platform] (t : Token) : Piece :=
  match t.kind with
  | .identifier => .name t.name
  | .doubleQuoted | .singleQuoted =>
    match literal t.lexeme.toList with
    | .ok text => .literal text
    | .error _ => .mark t.kind
  | kind => .mark kind

/-- The mark of a suffix, if it has one. -/
def Suffix.pieces : Suffix → List Piece
  | .optional => [.mark .question]
  | .star => [.mark .star]
  | .plus => [.mark .plus]
  | _ => []

/-- What a leaf is written as. -/
def Leaf.pieces : Leaf → List Piece
  | .name n => [.name n]
  | .literal t => [.literal t]
  | .unknown => []

namespace Expr

mutual

/-- What an atom is written as. -/
def atomPieces : Atom → List Piece
  | .leaf l suffix _ => l.pieces ++ suffix.pieces
  | .group alternatives suffix _ =>
    .mark .leftParen :: (pieces alternatives ++ .mark .rightParen :: suffix.pieces)

/-- What a sequence is written as. -/
def sequencePieces : List Atom → List Piece
  | [] => []
  | a :: as => atomPieces a ++ sequencePieces as

/-- What an expression is written as: its alternatives, with a bar in front of all but the
first. -/
def pieces : List (List Atom) → List Piece
  | [] => []
  | alternative :: rest => sequencePieces alternative ++ restPieces rest

/-- What alternatives are written as, each behind a bar. -/
def restPieces : List (List Atom) → List Piece
  | [] => []
  | alternative :: rest => .mark .bar :: (sequencePieces alternative ++ restPieces rest)

end

end Expr

/-- What a rule is written as. -/
def Rule.pieces (r : Rule) : List Piece :=
  .name r.name :: .mark .colon :: (Expr.pieces r.body ++ [.mark .semicolon])

namespace Declaration

/-- What the directives are written as.  No terminals are declared by no directive. -/
def directivePieces (d : Declaration) : List Piece :=
  (if d.tokens.isEmpty then []
    else .mark .percent :: .name "token" :: (d.tokens.map .name ++ [.mark .semicolon])) ++
  match d.start with
  | some s => [.mark .percent, .name "start", .name s, .mark .semicolon]
  | none => []

/-- What a declaration is written as. -/
def pieces (d : Declaration) : List Piece :=
  d.directivePieces ++ d.rules.flatMap Rule.pieces

end Declaration

/-! ## 2. Texts -/

/-- The letters of a mark. -/
def TokenKind.spelling : TokenKind → List Char
  | .percent => ['%']
  | .colon => [':']
  | .semicolon => [';']
  | .bar => ['|']
  | .leftParen => ['(']
  | .rightParen => [')']
  | .question => ['?']
  | .star => ['*']
  | .plus => ['+']
  | _ => []

/-- The letters of a piece. -/
def Piece.spelling : Piece → List Char
  | .mark kind => kind.spelling
  | .name n => n.shown.toList
  | .literal t => quotedChars t

/-- What may stand between two tokens: blanks, line ends and comments in any mixture.  A comment
up to the end of the line brings that line end along. -/
inductive IsGap : List Char → Prop
  | nil : IsGap []
  | blank {c : Char} {cs : List Char} (hc : LexemeClass.isBlank c = true) (h : IsGap cs) :
      IsGap (c :: cs)
  | lineEnd {cs : List Char} (h : IsGap cs) : IsGap ('\n' :: cs)
  | lineComment {body cs : List Char} (hb : '\n' ∉ body) (h : IsGap cs) :
      IsGap ('/' :: '/' :: (body ++ '\n' :: cs))
  | blockComment {body cs : List Char} (hb : ¬ ['*', '/'] <:+: body) (h : IsGap cs) :
      IsGap ('/' :: '*' :: (body ++ '*' :: '/' :: cs))

/-- Pieces spelled one behind the other, with a gap that is not empty between any two. -/
inductive IsSpaced : List Piece → List Char → Prop
  | nil : IsSpaced [] []
  | single (p : Piece) : IsSpaced [p] p.spelling
  | cons {p q : Piece} {ps : List Piece} {gap text : List Char} (hg : IsGap gap) (hn : gap ≠ [])
      (h : IsSpaced (q :: ps) text) : IsSpaced (p :: q :: ps) (p.spelling ++ gap ++ text)

/-! ## 3. Declarations that can be written -/

/-- Whether the letters make up an identifier. -/
def IsIdentifier (n : Name) : Prop :=
  ∃ c cs, n = Text.ofChars (c :: cs) ∧ Text.isIdentStart c = true ∧
    ∀ d ∈ cs, Text.isIdentContinue d = true

namespace Expr

mutual

/-- Whether an atom can be written and read back. -/
def AtomWritable : Atom → Prop
  | .leaf (.name n) suffix _ => IsIdentifier n ∧ ∀ word, suffix ≠ .other word
  | .leaf (.literal _) suffix _ => ∀ word, suffix ≠ .other word
  | .leaf .unknown _ _ => False
  | .group alternatives suffix _ =>
    alternatives ≠ [] ∧ Writable alternatives ∧ ∀ word, suffix ≠ .other word

/-- Whether a sequence can be written and read back. -/
def SequenceWritable : List Atom → Prop
  | [] => True
  | a :: as => AtomWritable a ∧ SequenceWritable as

/-- Whether the alternatives of an expression can be written and read back. -/
def Writable : List (List Atom) → Prop
  | [] => True
  | alternative :: rest => SequenceWritable alternative ∧ Writable rest

end

end Expr

/-- Whether a declaration can be written and read back: its names are identifiers, its suffixes
have a meaning, no group and no rule is without alternatives, and only where there are no rules is
there no start symbol. -/
structure Declaration.Writable (d : Declaration) : Prop where
  tokens : ∀ n ∈ d.tokens, IsIdentifier n
  rules : ∀ r ∈ d.rules, IsIdentifier r.name ∧ r.body ≠ [] ∧ Expr.Writable r.body
  start : ∀ s, d.start = some s → IsIdentifier s
  start_of_rules : d.start = none → d.rules = []

/-! ## 4. Forgetting places -/

namespace Expr

mutual

/-- An atom without its places. -/
def atomWithoutSpans : Atom → Atom
  | .leaf l suffix _ => .leaf l suffix none
  | .group alternatives suffix _ => .group (withoutSpans alternatives) suffix none

/-- A sequence without its places. -/
def sequenceWithoutSpans : List Atom → List Atom
  | [] => []
  | a :: as => atomWithoutSpans a :: sequenceWithoutSpans as

/-- An expression without its places. -/
def withoutSpans : List (List Atom) → List (List Atom)
  | [] => []
  | alternative :: rest => sequenceWithoutSpans alternative :: withoutSpans rest

end

end Expr

/-- A rule without its places. -/
def Rule.withoutSpans (r : Rule) : Rule := ⟨r.name, Expr.withoutSpans r.body, none⟩

/-- A declaration without its places. -/
def Declaration.withoutSpans (d : Declaration) : Declaration :=
  ⟨d.tokens, d.rules.map Rule.withoutSpans, d.start⟩

end Lookahead
