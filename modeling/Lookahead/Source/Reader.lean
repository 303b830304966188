import Lookahead.Extended.Declaration
import Lookahead.Source.Error

/-!
# Reading a declaration

A grammar text is a list of directives followed by a list of rules, each closed by a semicolon:

    %token NAME … ;      %start NAME ;      NAME : alternatives ;

Alternatives are separated by bars and may be empty.  An atom is an identifier, a literal or a
group in parentheses; `?`, `*` or `+` behind it is its suffix.

## 1. One token at a time

The reader takes one token after the other and never looks ahead.  Its state (`Reading`) is what
has been declared so far and the `Stage` it is in the middle of.  `Reading.step` takes one token
and gives the next state or refuses; `Reading.finish` does the same with the end of the text.  So
a text is refused at the first token with which no grammar text could have begun, and that is the
token that is reported.

## 2. Inside a rule

The alternatives being read are a `Level`; a parenthesis puts the level around it aside, together
with the place of the parenthesis.  An atom may still get a suffix until the next token, so the
last one waits in `pending`.
-/

namespace Lookahead

open Text (literal)

/-- What the reader is in the middle of. -/
inductive Stage where
  /-- Nothing: a directive or a rule can begin here. -/
  | between
  /-- A directive, behind its percent sign. -/
  | directive
  /-- A list of terminals; the last one, if there is one. -/
  | tokens (last : Option Token)
  /-- The declaration of the start symbol; the name, if it is read. -/
  | start (last : Option Token)
  /-- A rule, behind its name. -/
  | head (name : Token)
  /-- A rule, behind its colon: the last token, the open parentheses, innermost first, with the
  levels around them, the level inside, and the atom that may get a suffix. -/
  | body (name last : Token) (outer : List (Token × Level)) (level : Level)
      (pending : Option Atom)
deriving Repr, Inhabited

/-- What has been declared so far, and what the reader is in the middle of. -/
structure Reading where
  declared : Declaration
  stage : Stage
deriving Repr, Inhabited

/-- The span of a token. -/
def Token.span (t : Token) : Span := ⟨t.start.offset, t.stop, t.start.line, t.start.column⟩

/-- The level with the waiting atom put in its place. -/
def Level.settle (l : Level) : Option Atom → Level
  | none => l
  | some a => l.push a

/-- The suffix that a token stands for. -/
def TokenKind.suffix? : TokenKind → Option Suffix
  | .question => some .optional
  | .star => some .star
  | .plus => some .plus
  | _ => none

namespace Reading

variable [Platform]

/-- Nothing read yet. -/
def initial : Reading := ⟨⟨[], [], none⟩, .between⟩

/-- The report that a token cannot stand here. -/
def refuse (r : Reading) (t : Token) : SourceError :=
  match r.stage with
  | .between => .expected .identifier t
  | .directive => .noDirective t
  | .tokens none => .expected .identifier t
  | .tokens (some last) => .missingSemicolon .tokens last.stop t
  | .start none => .expected .identifier t
  | .start (some last) => .missingSemicolon .start last.stop t
  | .head _ => .expected .colon t
  | .body name last [] _ _ => .missingSemicolon (.rule name.lexeme) last.stop t
  | .body _ _ (_ :: _) _ _ => .expected .rightParen t

/-- Begins the directive of that name. -/
def stepDirective (d : Declaration) (t : Token) : Except SourceError Reading :=
  if t.lexeme = "token" then .ok ⟨d, .tokens none⟩
  else if t.lexeme = "start" then .ok ⟨d, .start none⟩
  else .error (.unknownDirective t)

/-- Takes a token inside the body of a rule. -/
def stepBody (d : Declaration) (name last : Token) (outer : List (Token × Level))
    (level : Level) (pending : Option Atom) (t : Token) : Except SourceError Reading :=
  let settled := level.settle pending
  match t.kind with
  | .identifier =>
    .ok ⟨d, .body name t outer settled (some (.leaf (.name t.name) .once (some t.span)))⟩
  | .doubleQuoted | .singleQuoted =>
    match literal t.lexeme.toList with
    | .error fault => .error (.literal fault t)
    | .ok text =>
      .ok ⟨d, .body name t outer settled (some (.leaf (.literal text) .once (some t.span)))⟩
  | .leftParen => .ok ⟨d, .body name t ((t, settled) :: outer) .empty none⟩
  | .rightParen =>
    match outer with
    | [] => .error (refuse ⟨d, .body name last outer level pending⟩ t)
    | (opening, around) :: outer =>
      .ok ⟨d, .body name t outer around
        (some (.group settled.alternatives .once (some opening.span)))⟩
  | .bar => .ok ⟨d, .body name t outer settled.bar none⟩
  | .semicolon =>
    match outer with
    | [] =>
      let span : Span := ⟨name.start.offset, last.stop, name.start.line, name.start.column⟩
      let rule : Rule := ⟨name.name, settled.alternatives, some span⟩
      .ok ⟨⟨d.tokens, d.rules ++ [rule], d.start⟩, .between⟩
    | _ :: _ => .error (refuse ⟨d, .body name last outer level pending⟩ t)
  | kind =>
    match kind.suffix?, pending with
    | some suffix, some a => .ok ⟨d, .body name t outer (level.push (a.withSuffix suffix)) none⟩
    | _, _ => .error (refuse ⟨d, .body name last outer level pending⟩ t)

/-- Takes one token. -/
def step (r : Reading) (t : Token) : Except SourceError Reading :=
  match r.stage, t.kind with
  | .between, .percent =>
    if r.declared.rules.isEmpty then .ok ⟨r.declared, .directive⟩ else .error (r.refuse t)
  | .between, .identifier => .ok ⟨r.declared, .head t⟩
  | .directive, .identifier => stepDirective r.declared t
  | .tokens _, .identifier =>
    .ok ⟨⟨r.declared.tokens ++ [t.name], r.declared.rules, r.declared.start⟩, .tokens (some t)⟩
  | .tokens (some _), .semicolon => .ok ⟨r.declared, .between⟩
  | .start none, .identifier =>
    .ok ⟨⟨r.declared.tokens, r.declared.rules, some t.name⟩, .start (some t)⟩
  | .start (some _), .semicolon => .ok ⟨r.declared, .between⟩
  | .head name, .colon => .ok ⟨r.declared, .body name t [] .empty none⟩
  | .body name last outer level pending, _ =>
    stepBody r.declared name last outer level pending t
  | _, _ => .error (r.refuse t)

/-- Takes the end of the text.  Where no start symbol is declared, the first rule's name is. -/
def finish (r : Reading) (close : Token) : Except SourceError Declaration :=
  match r.stage with
  | .between =>
    let d := r.declared
    .ok ⟨d.tokens, d.rules, d.start.or d.ruleNames.head?⟩
  | _ => .error (r.refuse close)

/-- Takes the tokens that are left, and the end of the text. -/
def read (r : Reading) (close : Token) : List Token → Except SourceError Declaration
  | [] => r.finish close
  | t :: ts =>
    match r.step t with
    | .error e => .error e
    | .ok r => r.read close ts

end Reading

namespace Declaration

variable [Platform]

/-- The declaration that a list of tokens makes up. -/
def ofTokens (ts : TokenList) : Except SourceError Declaration :=
  Reading.initial.read ts.close ts.tokens

/-- The declaration that a text makes up. -/
def ofText (text : List Char) : Except SourceError Declaration :=
  match TokenList.scan text with
  | .error (c, p) => .error (.unexpectedChar c p)
  | .ok ts => ofTokens ts

end Declaration

end Lookahead
