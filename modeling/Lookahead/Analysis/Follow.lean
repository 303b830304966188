import Lookahead.Analysis.First

/-!
# FOLLOW sets

FOLLOW of a non-terminal holds the terminals that can stand right behind it in a sentential form,
and the end marker if it can stand at the very end.  In a production `A -> X₁ … Xₙ`, what follows
`Xₙ` is what follows `A`; what follows `Xᵢ` is what `Xᵢ₊₁` starts with and, if that symbol is
nullable, also what follows `Xᵢ₊₁`.  A right-hand side is therefore read from its right end, with
a **trailer** that says what can stand behind the part still to be read.
-/

namespace Lookahead

/-- Adds the trailers along a right-hand side, from its right end, and gives the trailer in front
of it; `trailer` is what can stand behind it. -/
def followScan (c : Catalog) (first : Table) (nullable : NameSet) (follow : Table)
    (trailer : NameSet) : List Name → Table × NameSet
  | [] => (follow, trailer)
  | n :: ns =>
    let (follow', behind) := followScan c first nullable follow trailer ns
    if c.isNonterminal n then
      (follow'.add n behind, if n ∈ nullable then first.get n ∪ behind else first.get n)
    else (follow', .singleton n)

/-- Reads one production; what follows its left-hand side follows its right-hand side. -/
def followStep (c : Catalog) (first : Table) (nullable : NameSet) (follow : Table)
    (p : Production) : Table :=
  (followScan c first nullable follow (follow.get p.lhs) p.rhs).1

/-- One pass over the productions. -/
def followPass (c : Catalog) (productions : List Production) (first : Table)
    (nullable : NameSet) (follow : Table) : Table :=
  productions.foldl (followStep c first nullable) follow

/-- The end marker follows the start symbol, and nothing is known of the others. -/
def initialFollow (c : Catalog) : Table :=
  match c.start with
  | some s => (Table.blank c.nonterminals).add s (.singleton endMarker)
  | none => Table.blank c.nonterminals

/-- The repetition that finds the FOLLOW sets. -/
def followRun (c : Catalog) (productions : List Production) (first : Table)
    (nullable : NameSet) : Saturated Table :=
  saturate (followPass c productions first nullable)
    (fun t => c.nonterminals.length * (c.terminals.length + 1) - t.sizeOver c.nonterminals)
    (initialFollow c)

/-- FOLLOW of every declared non-terminal. -/
def followTable (c : Catalog) (productions : List Production) (first : Table)
    (nullable : NameSet) : Table :=
  (followRun c productions first nullable).state

end Lookahead
