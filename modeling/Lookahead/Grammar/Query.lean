import Lookahead.Grammar.Basic

/-!
# Questions about a grammar

Every question is answered from the tables.  A question about a non-terminal is refused only if
that non-terminal is not declared.  A question about a sequence depends on what the sequence uses:

* if some mark in it is not a declared name, the sequence is read as an extended right-hand side.
  First its brackets must match, then every name in it that is no mark must be declared;
* otherwise it is a sequence of names, all of which must be declared.

An extended sequence is answered by its structure, without inventing non-terminals
(`Expr.first`).  An atom that may be left out is nullable whatever it applies to; a group starts
with what its alternatives start with, and is nullable if one of them is.
-/

namespace Lookahead

/-! ## 1. Extended sequences -/

/-- Whether an atom with the suffix may be left out. -/
def Suffix.isOptional : Suffix → Bool
  | .optional => true
  | .star => true
  | _ => false

namespace Expr

mutual

/-- FIRST of an atom, and whether it is nullable. -/
def firstOfAtom (first : Table) (nullable : NameSet) : Atom → NameSet × Bool
  | .leaf (.name n) suffix _ => (first.get n, n ∈ nullable || suffix.isOptional)
  | .leaf (.literal t) suffix _ => (first.get t, t ∈ nullable || suffix.isOptional)
  | .leaf .unknown suffix _ => (∅, suffix.isOptional)
  | .group alternatives suffix _ =>
    let (f, n) := Expr.first first nullable alternatives
    (f, n || suffix.isOptional)

/-- FIRST of a sequence of atoms, and whether it is nullable. -/
def firstOfAtoms (first : Table) (nullable : NameSet) : List Atom → NameSet × Bool
  | [] => (∅, true)
  | a :: as =>
    let (f, n) := firstOfAtom first nullable a
    if n then
      let (rest, restNullable) := firstOfAtoms first nullable as
      (f ∪ rest, restNullable)
    else (f, false)

/-- FIRST of an expression, and whether it is nullable: the union over its alternatives. -/
def first (first : Table) (nullable : NameSet) : List (List Atom) → NameSet × Bool
  | [] => (∅, false)
  | alternative :: rest =>
    let (f, n) := firstOfAtoms first nullable alternative
    let (f', n') := Expr.first first nullable rest
    (f ∪ f', n || n')

end

end Expr

/-! ## 2. Questions -/

namespace Grammar

/-- Whether a sequence is to be read as an extended right-hand side. -/
def readsExtended (g : Grammar) (names : List Name) : Bool :=
  names.any fun n => isMark n && !g.catalog.contains n

/-- FIRST of a sequence, and whether the sequence is nullable. -/
def firstOf (g : Grammar) (names : List Name) : Except GrammarError (NameSet × Bool) :=
  if g.readsExtended names then
    match Expr.ofNames names none with
    | .error e => .error e
    | .ok body =>
      match g.catalog.requireAll (names.filter (! isMark ·)) with
      | .error e => .error e
      | .ok _ => .ok (Expr.first g.first g.nullable body)
  else
    match g.catalog.requireAll names with
    | .error e => .error e
    | .ok names => .ok (firstOfSequence g.first g.nullable names)

/-- FIRST of a sequence. -/
def firstSet (g : Grammar) (names : List Name) : Except GrammarError NameSet :=
  (g.firstOf names).map (·.1)

/-- Whether a sequence is nullable. -/
def isNullable (g : Grammar) (names : List Name) : Except GrammarError Bool :=
  (g.firstOf names).map (·.2)

/-- FOLLOW of a non-terminal. -/
def followSet (g : Grammar) (n : Name) : Except GrammarError NameSet :=
  (g.catalog.requireNonterminal n).map g.follow.get

/-- The alternatives of a non-terminal with their director sets, in order. -/
def directorSets (g : Grammar) (n : Name) : Except GrammarError (List (Alternative × NameSet)) :=
  (g.catalog.requireNonterminal n).map fun n =>
    match g.director.find? (·.1 = n) with
    | some row => row.2
    | none => []

/-- The right-hand sides of a non-terminal, in order. -/
def productionsFor (g : Grammar) (n : Name) : Except GrammarError (List (List Name)) :=
  (g.catalog.requireNonterminal n).map (rhssOf g.productions)

/-- The alternatives of a non-terminal, in order. -/
def alternatives (g : Grammar) (n : Name) : Except GrammarError (List Alternative) :=
  (g.catalog.requireNonterminal n).map (alternativesOf g.productions)

end Grammar

end Lookahead
