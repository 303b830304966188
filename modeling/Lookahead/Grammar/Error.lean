import Lookahead.Grammar.Production
import Lookahead.Text.Quoted

/-!
# What can be wrong with a grammar

Every way in which a grammar is refused, or a question about it cannot be answered, is one
constructor of `GrammarError`, which holds what is at fault.  Three functions say how a fault is
reported: its class (`label`), the name it is about (`symbol?`), and the sentence (`message`).
-/

namespace Lookahead

open Text (quoted)

/-- A fault of a grammar, or of a question about one. -/
inductive GrammarError where
  /-- A right-hand side holds a name that is not declared. -/
  | undeclaredSymbol (production : Production) (symbol : Name)
  /-- A name is declared as a terminal and as a non-terminal. -/
  | ambiguousKind (symbol : Name)
  /-- A left-hand side is not a declared non-terminal. -/
  | unknownLhs (production : Production)
  /-- The start symbol, if there is one, is not a declared non-terminal. -/
  | invalidStart (start : Option Name)
  /-- A question names a symbol that is not declared. -/
  | unknownSymbol (symbol : Name)
  /-- A question names a non-terminal that is not declared. -/
  | unknownNonterminal (symbol : Name)
  /-- The end marker is declared. -/
  | reserved
  /-- A closing bracket does not close the innermost open one.  The left-hand side is that of the
  production, if the sequence comes from one. -/
  | unbalanced (symbol : Name) (lhs : Option Name)
  /-- The closing bracket of the innermost open one is missing. -/
  | unclosed (symbol : Name) (lhs : Option Name)
deriving DecidableEq, Repr

namespace GrammarError

/-- The class of a fault, as reports name it. -/
def label : GrammarError → String
  | undeclaredSymbol .. => "UndeclaredSymbol"
  | ambiguousKind .. => "AmbiguousSymbolKind"
  | unknownLhs .. => "UnknownLhs"
  | invalidStart .. => "InvalidStartSymbol"
  | unknownSymbol .. => "UnknownSymbol"
  | unknownNonterminal .. => "UnknownSymbol"
  | reserved => "ReservedSymbol"
  | unbalanced .. => "ExtendedNotationError"
  | unclosed .. => "ExtendedNotationError"

/-- The name a fault is about. -/
def symbol? : GrammarError → Option Name
  | undeclaredSymbol _ n => some n
  | ambiguousKind n => some n
  | unknownLhs p => some p.lhs
  | invalidStart n => n
  | unknownSymbol n => some n
  | unknownNonterminal n => some n
  | reserved => some endMarker
  | unbalanced n _ => some n
  | unclosed n _ => some n

/-- A name in quotes, or `None` where there is none. -/
def quotedOrNone : Option Name → String
  | none => "None"
  | some n => quoted n

/-- The sentence that reports a fault. -/
def message : GrammarError → Text
  | undeclaredSymbol p n =>
    "Production " ++ p.render ++ " references undeclared symbol " ++ quoted n
  | ambiguousKind n =>
    "Symbol " ++ quoted n ++ " is declared both as a terminal and a nonterminal"
  | unknownLhs p =>
    "Production " ++ p.render ++ " has an undeclared left-hand side " ++ quoted p.lhs
  | invalidStart n => "Start symbol " ++ quotedOrNone n ++ " is not a declared nonterminal"
  | unknownSymbol n => "Unknown symbol " ++ quoted n
  | unknownNonterminal n => "Unknown nonterminal " ++ quoted n
  | reserved => "Symbol " ++ quoted endMarker ++ " is reserved for end of input"
  | unbalanced n lhs => "Unbalanced " ++ quoted n ++ " in right-hand side of " ++ quotedOrNone lhs
  | unclosed n lhs => "Missing " ++ quoted n ++ " in right-hand side of " ++ quotedOrNone lhs

end GrammarError

end Lookahead
