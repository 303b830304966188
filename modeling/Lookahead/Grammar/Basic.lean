import Lookahead.Analysis.Director
import Lookahead.Extended.Bnf

/-!
# Checked grammars

A `Grammar` is a catalog and productions over it that have passed every check, together with
everything the analyses find out about them.  The tables are computed once, by
`Grammar.analyse`, and only read afterwards; they are a function of the catalog and the
productions.

## Ways to a grammar

* `Grammar.plain` takes productions as they are: a mark in a right-hand side is a name like any
  other.  The catalog is checked first, then the productions in order.
* `Grammar.extended` lowers the productions first, so a fault in the brackets comes before all
  others; the invented non-terminals follow the declared ones.
* `Grammar.ofBnf` takes a plain grammar, in which everything is lowered already.
-/

namespace Lookahead

/-- A checked grammar with the tables found for it. -/
structure Grammar where
  catalog : Catalog
  productions : List Production
  nullable : NameSet
  first : Table
  follow : Table
  /-- The alternatives of each non-terminal with their director sets. -/
  director : List (Name × List (Alternative × NameSet))
  conflicts : List Conflict

namespace Grammar

/-- Computes the tables for productions over a catalog. -/
def analyse (catalog : Catalog) (productions : List Production) : Grammar :=
  let nullable := nullableSet catalog productions
  let first := firstTable catalog productions nullable
  let follow := followTable catalog productions first nullable
  let director := catalog.nonterminals.map fun n =>
    (n, directorRow productions first follow nullable n)
  { catalog, productions, nullable, first, follow, director
    conflicts := director.flatMap fun row => rowConflicts row.1 row.2 }

/-- The grammar of productions taken as they are, or the first fault. -/
def plain (terminals nonterminals : List Name) (productions : List Production)
    (start : Option Name) : Except GrammarError Grammar :=
  match Catalog.new.freeze terminals nonterminals start with
  | .error e => .error e
  | .ok catalog => (catalog.checkProductions productions).map (analyse catalog)

/-- The grammar of productions that may use marks, or the first fault. -/
def extended (terminals nonterminals : List Name) (productions : List Production)
    (start : Option Name) : Except GrammarError Grammar :=
  match lowerProductions productions (terminals ++ nonterminals) with
  | .error e => .error e
  | .ok (lowered, fresh) => plain terminals (nonterminals ++ fresh) lowered start

/-- The grammar of plain productions, or the first fault. -/
def ofBnf (b : Bnf) : Except GrammarError Grammar :=
  plain b.terminals b.nonterminals b.productions (some b.start)

/-- Whether no two alternatives conflict. -/
def isLL1 (g : Grammar) : Bool := g.conflicts.isEmpty

/-- A grammar as it is shown. -/
def render (g : Grammar) : Text :=
  "ECFG(terms=" ++ Text.quotedList g.catalog.terminals ++
    ", nonterms=" ++ Text.quotedList g.catalog.nonterminals ++
    ", prods=" ++ toString g.productions.length ++
    ", start=" ++ g.catalog.start.getD "None" ++ ")"

end Grammar

end Lookahead
