import Lookahead.Analysis.Follow

/-!
# Director sets and conflicts

A parser that looks one symbol ahead chooses among the alternatives of a non-terminal by their
**director sets**: FIRST of the right-hand side and, if that side is nullable, FOLLOW of the
left-hand side as well.  Two alternatives of one non-terminal **conflict** if their director sets
share a name.  A grammar is LL(1) if no two alternatives conflict.

Conflicts are listed by non-terminal in the order of the catalog, then by the index of the first
and of the second alternative.
-/

namespace Lookahead

/-- Two alternatives of one non-terminal whose director sets share names. -/
structure Conflict where
  lhs : Name
  first : Alternative
  second : Alternative
  overlap : NameSet
deriving DecidableEq

/-- A set as it is shown: its members in order, between braces. -/
def NameSet.render (s : NameSet) : Text :=
  "\x7b" ++ Text.join ", " s.toList ++ "\x7d"

/-- A conflict as it is shown. -/
def Conflict.render (c : Conflict) : Text :=
  c.lhs ++ ": [" ++ c.first.render ++ "] / [" ++ c.second.render ++ "] on " ++ c.overlap.render

/-- A list of conflicts as it is shown, one to a line. -/
def renderConflicts (cs : List Conflict) : Text :=
  if cs.isEmpty then "(no conflicts)" else Text.join "\n" (cs.map Conflict.render)

/-- The names on which an alternative is taken. -/
def directorSet (first follow : Table) (nullable : NameSet) (a : Alternative) : NameSet :=
  let (start, nullableRhs) := firstOfSequence first nullable a.rhs
  if nullableRhs then start ∪ follow.get a.lhs else start

/-- The alternatives of a non-terminal with their director sets. -/
def directorRow (productions : List Production) (first follow : Table) (nullable : NameSet)
    (lhs : Name) : List (Alternative × NameSet) :=
  (alternativesOf productions lhs).map fun a => (a, directorSet first follow nullable a)

/-- The conflicts of one alternative with those behind it. -/
def conflictsWith (lhs : Name) (a : Alternative × NameSet)
    (behind : List (Alternative × NameSet)) : List Conflict :=
  behind.filterMap fun b =>
    let overlap := a.2 ∩ b.2
    if overlap.isEmpty then none else some ⟨lhs, a.1, b.1, overlap⟩

/-- The conflicts among the alternatives of one non-terminal. -/
def rowConflicts (lhs : Name) : List (Alternative × NameSet) → List Conflict
  | [] => []
  | a :: rest => conflictsWith lhs a rest ++ rowConflicts lhs rest

end Lookahead
