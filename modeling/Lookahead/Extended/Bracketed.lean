import Lookahead.Extended.Expr
import Lookahead.Grammar.Error

/-!
# Expressions written as lists of names

A production is given as a list of names, so an extended right-hand side has to be written in
names too.  Seven names are set aside as **marks**: the bar `\|` between alternatives, and three
pairs of brackets around groups.  Round brackets `\( \)` only group, curly ones `\{ \}` repeat
their group any number of times, square ones `\[ \]` make it optional.  Every other name stands
for itself, read once.

`Expr.ofNames` reads such a list, `Expr.toNames` writes one.  The reader goes once from left to
right.  It keeps the expression being read as a `Level` and, for every bracket still open, the
level around it; a closing bracket must close the innermost open one.
-/

namespace Lookahead

/-- The three kinds of brackets. -/
inductive Bracket where
  | round
  | curly
  | square
deriving DecidableEq, Repr, Inhabited

/-- The suffix that a group gets from its brackets. -/
def Bracket.suffix : Bracket → Suffix
  | .round => .once
  | .curly => .star
  | .square => .optional

/-- A name with a meaning in a right-hand side. -/
inductive Mark where
  | bar
  | opening (b : Bracket)
  | closing (b : Bracket)
deriving DecidableEq, Repr, Inhabited

namespace Mark

/-- The mark as it is written. -/
def name : Mark → Name
  | bar => "\\|"
  | opening .round => "\\("
  | closing .round => "\\)"
  | opening .curly => "\\\x7b"
  | closing .curly => "\\\x7d"
  | opening .square => "\\["
  | closing .square => "\\]"

/-- All marks. -/
def all : List Mark :=
  [bar, opening .round, closing .round, opening .curly, closing .curly, opening .square,
    closing .square]

/-- The mark that a name is, if it is one. -/
def ofName? (n : Name) : Option Mark := all.find? (·.name = n)

theorem ofName?_name (m : Mark) : ofName? m.name = some m := by
  rcases m with _ | (_ | _ | _) | (_ | _ | _) <;> decide

theorem ofName?_eq_some_iff {n : Name} {m : Mark} : ofName? n = some m ↔ n = m.name := by
  constructor
  · intro h
    have : m.name = n := by simpa using List.find?_some h
    exact this.symm
  · rintro rfl
    exact ofName?_name m

end Mark

/-- Whether a name is a mark. -/
def isMark (n : Name) : Bool := (Mark.ofName? n).isSome

theorem isMark_iff {n : Name} : isMark n = true ↔ ∃ m : Mark, n = m.name := by
  simp [isMark, Option.isSome_iff_exists, Mark.ofName?_eq_some_iff]

/-- Whether a list of names uses a mark. -/
def hasMarks (names : List Name) : Bool := names.any isMark

namespace Expr

/-! ## 1. Reading -/

/-- Reads on from the middle of a list: `outer` holds the open brackets, innermost first, each
with the level around it, and `level` what has been read inside the innermost. -/
def readNames (lhs : Option Name) (outer : List (Bracket × Level)) (level : Level) :
    List Name → Except GrammarError Expr
  | [] =>
    match outer with
    | [] => .ok level.alternatives
    | (b, _) :: _ => .error (.unclosed (Mark.closing b).name lhs)
  | n :: ns =>
    match Mark.ofName? n with
    | none => readNames lhs outer (level.push (.ofName n)) ns
    | some .bar => readNames lhs outer level.bar ns
    | some (.opening b) => readNames lhs ((b, level) :: outer) .empty ns
    | some (.closing b) =>
      match outer with
      | [] => .error (.unbalanced n lhs)
      | (b', around) :: outer' =>
        if b = b' then
          readNames lhs outer' (around.push (.group level.alternatives b.suffix none)) ns
        else .error (.unbalanced n lhs)

/-- The expression that a list of names writes down.  The left-hand side, if the list belongs to
one, is only needed to report a fault. -/
def ofNames (names : List Name) (lhs : Option Name) : Except GrammarError Expr :=
  readNames lhs [] .empty names

/-! ## 2. Writing -/

/-- The brackets that give a group its suffix; round ones where no pair does. -/
def bracketOf : Suffix → Bracket
  | .star => .curly
  | .optional => .square
  | _ => .round

mutual

/-- An atom in names. -/
def atomToNames : Atom → List Name
  | .leaf (.name n) _ _ => [n]
  | .leaf (.literal t) _ _ => [t]
  | .leaf .unknown _ _ => []
  | .group alternatives suffix _ =>
    (Mark.opening (bracketOf suffix)).name ::
      (toNames alternatives ++ [(Mark.closing (bracketOf suffix)).name])

/-- A sequence in names. -/
def sequenceToNames : List Atom → List Name
  | [] => []
  | a :: as => atomToNames a ++ sequenceToNames as

/-- An expression in names: its alternatives, with a bar in front of all but the first. -/
def toNames : List (List Atom) → List Name
  | [] => []
  | alternative :: rest => sequenceToNames alternative ++ restToNames rest

/-- Alternatives in names, each behind a bar. -/
def restToNames : List (List Atom) → List Name
  | [] => []
  | alternative :: rest => Mark.bar.name :: (sequenceToNames alternative ++ restToNames rest)

end

end Expr

end Lookahead
