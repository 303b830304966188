import Lookahead.Symbol

/-!
# Extended right-hand sides

The right-hand side of a rule may be more than a sequence of names: it may offer alternatives, put
parts of itself in groups, and mark a part as optional or repeated.  An **expression** is a list of
alternatives, an alternative is a sequence of **atoms**, and an atom is a leaf or a group with a
**suffix** that says how often it is to be read.

A leaf is a name, a literal, or nothing known; a suffix is one of the four that have a meaning, or
a word that has none.  The two unknown cases are what a careless hand can write into a tree; they
are reported when the tree is lowered, and no reader of this library produces them.
-/

namespace Lookahead

/-- How often an atom is read. -/
inductive Suffix where
  /-- Exactly once. -/
  | once
  /-- Once or not at all. -/
  | optional
  /-- Any number of times. -/
  | star
  /-- At least once. -/
  | plus
  /-- A word without a meaning. -/
  | other (word : String)
deriving DecidableEq, Repr, Inhabited

/-- What an atom that is no group stands for. -/
inductive Leaf where
  /-- The symbol of that name. -/
  | name (name : Name)
  /-- The terminal that consists of the text itself. -/
  | literal (text : Name)
  /-- Nothing known. -/
  | unknown
deriving DecidableEq, Repr, Inhabited

/-- The stretch of a source text that something was read from: the offsets of its first character
and behind its last one, and the line and column of its first. -/
structure Span where
  start : Nat
  stop : Nat
  line : Nat
  column : Nat
deriving DecidableEq, Repr, Inhabited

/-- A leaf, or alternatives in a group, with a suffix; and where it was read, if it was. -/
inductive Atom where
  | leaf (leaf : Leaf) (suffix : Suffix) (span : Option Span)
  | group (alternatives : List (List Atom)) (suffix : Suffix) (span : Option Span)
deriving Repr, Inhabited

/-- The alternatives of an expression, each a sequence of atoms. -/
abbrev Expr := List (List Atom)

namespace Atom

/-- The atom that is one name, read once. -/
def ofName (n : Name) : Atom := .leaf (.name n) .once none

/-- The atom with another suffix. -/
def withSuffix (suffix : Suffix) : Atom → Atom
  | leaf l _ span => leaf l suffix span
  | group alternatives _ span => group alternatives suffix span

end Atom

/-- An expression under construction: the alternatives that are finished, and the atoms of the one
that is being read. -/
structure Level where
  finished : List (List Atom)
  current : List Atom
deriving Repr, Inhabited

namespace Level

/-- Nothing read yet. -/
def empty : Level := ⟨[], []⟩

/-- One more atom in the alternative being read. -/
def push (l : Level) (a : Atom) : Level := ⟨l.finished, l.current ++ [a]⟩

/-- The alternatives read so far, the last one closed. -/
def alternatives (l : Level) : Expr := l.finished ++ [l.current]

/-- Closes the alternative being read and begins the next. -/
def bar (l : Level) : Level := ⟨l.alternatives, []⟩

end Level

end Lookahead
