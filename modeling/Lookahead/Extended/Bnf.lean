import Lookahead.Extended.Bracketed
import Lookahead.Extended.Lowering

/-!
# Plain grammars

A **plain grammar** has productions over names and nothing else; it is what the analyses start
from, and it is not checked yet.  There are two ways to it.

## 1. From productions

`lowerProductions` takes productions whose right-hand sides may use marks.  One that uses none is
left alone, whatever its names; one that does is read as an expression and lowered.  The
productions that come of it form a block in its place: first those of its own left-hand side, then
the others.

## 2. From a declaration

`Bnf.ofDeclaration` lowers the rules of a declaration.  The rule names are non-terminals, followed
by the invented ones.  Terminals are the declared tokens, and then every name of a right-hand side
that is a literal somewhere or no non-terminal, in the order of the productions.  Only rule names
and tokens count as taken for the invented names.
-/

namespace Lookahead

/-! ## 1. Productions with marks -/

/-- The productions of a left-hand side moved in front of the others. -/
def ownFirst (lhs : Name) (ps : List Production) : List Production :=
  ps.filter (·.lhs = lhs) ++ ps.filter (·.lhs ≠ lhs)

/-- What one production is lowered to, and the non-terminals invented for it. -/
def lowerProduction (s : Supply) (p : Production) :
    Except GrammarError ((List Production × List Name) × Supply) :=
  if hasMarks p.rhs then
    match Expr.ofNames p.rhs (some p.lhs) with
    | .error e => .error e
    | .ok body =>
      let (x, s) := Expr.lowerInto p.lhs s body
      .ok ((ownFirst p.lhs x.productions, x.fresh), s)
  else .ok (([p], []), s)

/-- Lowers productions one after the other, from a supply. -/
def lowerProductionsFrom (s : Supply) :
    List Production → Except GrammarError (List Production × List Name)
  | [] => .ok ([], [])
  | p :: ps =>
    match lowerProduction s p with
    | .error e => .error e
    | .ok ((block, fresh), s) =>
      (lowerProductionsFrom s ps).map fun (blocks, more) => (block ++ blocks, fresh ++ more)

/-- The productions with all marks lowered away, and the non-terminals invented for them, none of
which is among the taken names. -/
def lowerProductions (ps : List Production) (taken : List Name) :
    Except GrammarError (List Production × List Name) :=
  lowerProductionsFrom (.ofTaken taken) ps

/-! ## 2. Declarations -/

/-- A grammar over plain productions, not checked. -/
structure Bnf where
  start : Name
  productions : List Production
  terminals : List Name
  nonterminals : List Name
deriving DecidableEq, Repr, Inhabited

namespace Bnf

/-- The plain grammar of lowered rules. -/
def ofLowered (d : Declaration) (x : Lowered) : Bnf :=
  let nonterminals := firstOccurrences (d.ruleNames ++ x.fresh)
  let used := x.productions.flatMap (·.rhs)
  { start := d.startName
    productions := x.productions
    terminals := firstOccurrences
      (d.tokens ++ used.filter fun n => n ∈ x.literals ∨ n ∉ nonterminals)
    nonterminals }

/-- The supply that a declaration is lowered with. -/
def supplyOf (d : Declaration) : Supply := .ofTaken (d.ruleNames ++ d.tokens)

/-- The first fault of a declaration's rules. -/
def faultOf? (d : Declaration) : Option LoweringFault :=
  d.rules.findSome? fun r => Expr.fault? r.body

/-- The plain grammar that a declaration is lowered to. -/
def ofDeclaration (d : Declaration) : Except LoweringFault Bnf :=
  match faultOf? d with
  | some e => .error e
  | none => .ok (ofLowered d (lowerRules (supplyOf d) d.rules).1)

end Bnf

end Lookahead
