import Lookahead.Symbol

/-!
# Fresh names

Lowering invents non-terminals.  Their names say what they are for and are numbered: `__grp1`,
`__rep1`, `__opt1` and so on, each purpose counting by itself.  A number whose name is in use
already is skipped and never returned to, so the numbers of one purpose only go up.

The search needs no bound from outside.  Among any `k + 1` different names one is not in a list of
`k` names, so if the first `k` candidates are all in use, the next one is not.
-/

namespace Lookahead

/-- What an invented non-terminal is for. -/
inductive Purpose where
  /-- The alternatives of a group. -/
  | group
  /-- Any number of readings in a row. -/
  | repetition
  /-- One reading or none. -/
  | option
deriving DecidableEq, Repr, Inhabited

/-- The letters of an invented name. -/
def Purpose.stem : Purpose → String
  | .group => "__grp"
  | .repetition => "__rep"
  | .option => "__opt"

/-- The name with the given number. -/
def Purpose.numbered (p : Purpose) (k : Nat) : Name :=
  (p.stem ++ toString k : String)

/-- The names in use and, for each purpose, the last number given out or skipped. -/
structure Supply where
  taken : List Name
  groups : Nat
  repetitions : Nat
  options : Nat
deriving DecidableEq, Repr, Inhabited

namespace Supply

/-- Nothing given out yet. -/
def ofTaken (taken : List Name) : Supply := ⟨taken, 0, 0, 0⟩

/-- The last number of a purpose. -/
def count (s : Supply) : Purpose → Nat
  | .group => s.groups
  | .repetition => s.repetitions
  | .option => s.options

/-- The supply after giving out the name of that number. -/
def give (s : Supply) (p : Purpose) (k : Nat) : Supply :=
  let taken := p.numbered k :: s.taken
  match p with
  | .group => ⟨taken, k, s.repetitions, s.options⟩
  | .repetition => ⟨taken, s.groups, k, s.options⟩
  | .option => ⟨taken, s.groups, s.repetitions, k⟩

/-- How many numbers behind the last one are in use before the first free one. -/
def skipped (s : Supply) (p : Purpose) : Nat :=
  ((List.range s.taken.length).find? fun i => p.numbered (s.count p + 1 + i) ∉ s.taken).getD
    s.taken.length

/-- The next number of a purpose. -/
def nextNumber (s : Supply) (p : Purpose) : Nat := s.count p + 1 + s.skipped p

/-- The next fresh name of a purpose. -/
def nextName (s : Supply) (p : Purpose) : Name := p.numbered (s.nextNumber p)

/-- The supply after giving out the next fresh name. -/
def next (s : Supply) (p : Purpose) : Supply := s.give p (s.nextNumber p)

end Supply

end Lookahead
