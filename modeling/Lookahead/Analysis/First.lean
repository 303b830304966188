import Lookahead.Analysis.Nullable
import Lookahead.Analysis.Table

/-!
# FIRST sets

FIRST of a sequence holds the terminals that a word derived from the sequence can start with.  A
terminal starts with itself.  A sequence starts with what its first symbol starts with and, if
that symbol is nullable, also with what the rest starts with.  So FIRST of the non-terminals is
the least table in which `FIRST A` contains FIRST of every right-hand side of `A`.

`firstOfSequence` reads a sequence against a table and says at the same time whether the whole
sequence is nullable.
-/

namespace Lookahead

/-- FIRST of a sequence and whether the sequence is nullable, given both for single symbols. -/
def firstOfSequence (first : Table) (nullable : NameSet) : List Name → NameSet × Bool
  | [] => (∅, true)
  | n :: ns =>
    if n ∈ nullable then
      let (rest, restNullable) := firstOfSequence first nullable ns
      (first.get n ∪ rest, restNullable)
    else (first.get n, false)

@[simp] theorem firstOfSequence_nil (first : Table) (nullable : NameSet) :
    firstOfSequence first nullable [] = (∅, true) := rfl

theorem firstOfSequence_cons_nullable {first : Table} {nullable : NameSet} {n : Name}
    (h : n ∈ nullable) (ns : List Name) :
    firstOfSequence first nullable (n :: ns) =
      (first.get n ∪ (firstOfSequence first nullable ns).1,
        (firstOfSequence first nullable ns).2) := by
  simp [firstOfSequence, h]

theorem firstOfSequence_cons {first : Table} {nullable : NameSet} {n : Name}
    (h : n ∉ nullable) (ns : List Name) :
    firstOfSequence first nullable (n :: ns) = (first.get n, false) := by
  simp [firstOfSequence, h]

/-- A sequence is nullable when all its members are. -/
theorem firstOfSequence_snd (first : Table) (nullable : NameSet) (ns : List Name) :
    (firstOfSequence first nullable ns).2 = ns.all (· ∈ nullable) := by
  induction ns with
  | nil => rfl
  | cons n ns ih =>
    by_cases h : n ∈ nullable
    · simp [firstOfSequence_cons_nullable h, ih, h]
    · simp [firstOfSequence_cons h, h]

/-- Each terminal starts with itself, and nothing is known of the non-terminals. -/
def initialFirst (c : Catalog) : Table :=
  c.terminals.foldl (fun t n => t.add n (.singleton n)) (Table.blank c.nonterminals)

/-- Adds FIRST of a right-hand side to its left-hand side. -/
def firstStep (nullable : NameSet) (first : Table) (p : Production) : Table :=
  first.add p.lhs (firstOfSequence first nullable p.rhs).1

/-- One pass over the productions. -/
def firstPass (productions : List Production) (nullable : NameSet) (first : Table) : Table :=
  productions.foldl (firstStep nullable) first

/-- The repetition that finds the FIRST sets. -/
def firstRun (c : Catalog) (productions : List Production) (nullable : NameSet) :
    Saturated Table :=
  saturate (firstPass productions nullable)
    (fun t => c.nonterminals.length * c.terminals.length - t.sizeOver c.nonterminals)
    (initialFirst c)

/-- FIRST of every declared symbol. -/
def firstTable (c : Catalog) (productions : List Production) (nullable : NameSet) : Table :=
  (firstRun c productions nullable).state

end Lookahead
