import Lookahead.Grammar.Query

/-!
# Looking things up, and failing to

`Table.get` answers for every name, with the empty set where there is no entry.  That is convenient,
and it could hide a mistake: an analysis that asks for an entry nobody has made goes on as if there
were nothing to find.  This module says the same computations once more for tables in which an entry
that is missing cannot be read.  Every look-up may **miss**, and then all that depends on it is
`none`.

## 1. Analyses

FIRST and FOLLOW are read, and enlarged, at names that have an entry; so have the left-hand sides of
the productions and the start symbol.  The passes are repeated as before.

## 2. Questions

A question can be refused, which is an error, or it can miss, which is no answer at all.  An
extended sequence is answered by its structure; there only a name can be looked up, and a leaf that
is none misses.
-/

namespace Lookahead

/-! ## 1. Analyses -/

namespace Table

/-- The set of a name that has one. -/
def get? (t : Table) (n : Name) : Option NameSet := t.sets[n]?

/-- Enlarges the set of a name that has one. -/
def add? (t : Table) (n : Name) (s : NameSet) : Option Table :=
  (t.get? n).map fun old => ⟨t.sets.insert n (old ∪ s)⟩

end Table

/-- Repeats a pass as long as it uses up room and misses nothing. -/
def saturate? {σ : Type} (pass : σ → Option σ) (room : σ → Nat) (s : σ) : Option (Saturated σ) :=
  match pass s with
  | none => none
  | some t =>
    if _h : room t < room s then
      (saturate? pass room t).map fun r => ⟨r.state, r.passes + 1⟩
    else some ⟨t, 1⟩
termination_by room s

/-- FIRST of a sequence and whether it is nullable, each name looked up that is reached. -/
def firstOfSequence? (first : Table) (nullable : NameSet) : List Name → Option (NameSet × Bool)
  | [] => some (∅, true)
  | n :: ns => do
    let s ← first.get? n
    if n ∈ nullable then
      let (rest, restNullable) ← firstOfSequence? first nullable ns
      return (s ∪ rest, restNullable)
    else return (s, false)

/-- Adds FIRST of a right-hand side to its left-hand side. -/
def firstStep? (nullable : NameSet) (first : Table) (p : Production) : Option Table := do
  let (s, _) ← firstOfSequence? first nullable p.rhs
  first.add? p.lhs s

/-- The repetition that finds the FIRST sets. -/
def firstRun? (c : Catalog) (productions : List Production) (nullable : NameSet) :
    Option (Saturated Table) :=
  saturate? (fun t => productions.foldlM (firstStep? nullable) t)
    (fun t => c.nonterminals.length * c.terminals.length - t.sizeOver c.nonterminals)
    (initialFirst c)

/-- FIRST of every declared symbol. -/
def firstTable? (c : Catalog) (productions : List Production) (nullable : NameSet) :
    Option Table :=
  (firstRun? c productions nullable).map (·.state)

/-- Adds the trailers along a right-hand side, from its right end. -/
def followScan? (c : Catalog) (first : Table) (nullable : NameSet) (follow : Table)
    (trailer : NameSet) : List Name → Option (Table × NameSet)
  | [] => some (follow, trailer)
  | n :: ns => do
    let (follow', behind) ← followScan? c first nullable follow trailer ns
    if c.isNonterminal n then
      let follow'' ← follow'.add? n behind
      let s ← first.get? n
      return (follow'', if n ∈ nullable then s ∪ behind else s)
    else return (follow', .singleton n)

/-- Reads one production, with what follows its left-hand side behind it. -/
def followStep? (c : Catalog) (first : Table) (nullable : NameSet) (follow : Table)
    (p : Production) : Option Table := do
  let trailer ← follow.get? p.lhs
  let (follow', _) ← followScan? c first nullable follow trailer p.rhs
  return follow'

/-- The end marker follows the start symbol; a catalog without one has no such entry. -/
def initialFollow? (c : Catalog) : Option Table :=
  c.start.bind fun s => (Table.blank c.nonterminals).add? s (.singleton endMarker)

/-- The repetition that finds the FOLLOW sets. -/
def followRun? (c : Catalog) (productions : List Production) (first : Table)
    (nullable : NameSet) : Option (Saturated Table) :=
  (initialFollow? c).bind
    (saturate? (fun t => productions.foldlM (followStep? c first nullable) t)
      fun t => c.nonterminals.length * (c.terminals.length + 1) - t.sizeOver c.nonterminals)

/-- FOLLOW of every declared non-terminal. -/
def followTable? (c : Catalog) (productions : List Production) (first : Table)
    (nullable : NameSet) : Option Table :=
  (followRun? c productions first nullable).map (·.state)

/-- The names on which an alternative is taken. -/
def directorSet? (first follow : Table) (nullable : NameSet) (a : Alternative) :
    Option NameSet := do
  let (start, nullableRhs) ← firstOfSequence? first nullable a.rhs
  if nullableRhs then
    let behind ← follow.get? a.lhs
    return start ∪ behind
  else return start

/-- The alternatives of a non-terminal with their director sets. -/
def directorRow? (productions : List Production) (first follow : Table) (nullable : NameSet)
    (lhs : Name) : Option (List (Alternative × NameSet)) :=
  (alternativesOf productions lhs).mapM fun a => do
    let s ← directorSet? first follow nullable a
    return (a, s)

namespace Grammar

/-- Computes the tables for productions over a catalog, unless a look-up misses. -/
def analyse? (catalog : Catalog) (productions : List Production) : Option Grammar := do
  let nullable := nullableSet catalog productions
  let first ← firstTable? catalog productions nullable
  let follow ← followTable? catalog productions first nullable
  let director ← catalog.nonterminals.mapM fun n => do
    let row ← directorRow? productions first follow nullable n
    return (n, row)
  return {
    catalog, productions, nullable, first, follow, director
    conflicts := director.flatMap fun row => rowConflicts row.1 row.2 }

/-- The grammar of productions taken as they are, the first fault, or a miss. -/
def plain? (terminals nonterminals : List Name) (productions : List Production)
    (start : Option Name) : Except GrammarError (Option Grammar) :=
  match Catalog.new.freeze terminals nonterminals start with
  | .error e => .error e
  | .ok catalog => (catalog.checkProductions productions).map (analyse? catalog)

end Grammar

/-! ## 2. Questions -/

namespace Expr

mutual

/-- FIRST of an atom, and whether it is nullable.  Of the leaves, only names can be looked up. -/
def firstOfAtom? (first : Table) (nullable : NameSet) : Atom → Option (NameSet × Bool)
  | .leaf (.name n) suffix _ => do
    let s ← first.get? n
    return (s, n ∈ nullable || suffix.isOptional)
  | .leaf _ _ _ => none
  | .group alternatives suffix _ => do
    let (f, n) ← Expr.first? first nullable alternatives
    return (f, n || suffix.isOptional)

/-- FIRST of a sequence of atoms, and whether it is nullable; nothing is looked up behind the first
atom that is not. -/
def firstOfAtoms? (first : Table) (nullable : NameSet) : List Atom → Option (NameSet × Bool)
  | [] => some (∅, true)
  | a :: as => do
    let (f, n) ← firstOfAtom? first nullable a
    if n then
      let (rest, restNullable) ← firstOfAtoms? first nullable as
      return (f ∪ rest, restNullable)
    else return (f, false)

/-- FIRST of an expression, and whether it is nullable. -/
def first? (first : Table) (nullable : NameSet) : List (List Atom) → Option (NameSet × Bool)
  | [] => some (∅, false)
  | alternative :: rest => do
    let (f, n) ← firstOfAtoms? first nullable alternative
    let (f', n') ← Expr.first? first nullable rest
    return (f ∪ f', n || n')

end

end Expr

namespace Grammar

/-- FIRST of a sequence, and whether the sequence is nullable. -/
def firstOf? (g : Grammar) (names : List Name) : Except GrammarError (Option (NameSet × Bool)) :=
  if g.readsExtended names then
    match Expr.ofNames names none with
    | .error e => .error e
    | .ok body =>
      match g.catalog.requireAll (names.filter (! isMark ·)) with
      | .error e => .error e
      | .ok _ => .ok (Expr.first? g.first g.nullable body)
  else
    match g.catalog.requireAll names with
    | .error e => .error e
    | .ok names => .ok (firstOfSequence? g.first g.nullable names)

/-- FOLLOW of a non-terminal. -/
def followSet? (g : Grammar) (n : Name) : Except GrammarError (Option NameSet) :=
  (g.catalog.requireNonterminal n).map g.follow.get?

/-- The alternatives of a non-terminal with their director sets, in order. -/
def directorSets? (g : Grammar) (n : Name) :
    Except GrammarError (Option (List (Alternative × NameSet))) :=
  (g.catalog.requireNonterminal n).map fun n => (g.director.find? (·.1 = n)).map (·.2)

end Grammar

end Lookahead
