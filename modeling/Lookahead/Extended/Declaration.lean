import Lookahead.Extended.Expr

/-!
# Declarations

A grammar text declares some names as terminals, gives rules, and may name the start symbol.  A
`Declaration` is what is left of it when the blanks, comments and separators are gone.

## Names that occur

The leaves of an expression, from left to right, hold all the names that occur in it: those read
as symbols (`identifiers`) and the texts of its literals (`literals`).  A declaration mentions
these, and besides them its terminals, the names of its rules, and its start symbol.

## Redundant parentheses

Parentheses around a stretch of a sequence do not change what the sequence means, and neither do
parentheses between an atom and its suffix.  `Regrouped` says that one expression comes from
another by putting in one such pair, at any depth.
-/

namespace Lookahead

/-- A rule: what its name may be replaced by. -/
structure Rule where
  name : Name
  body : Expr
  span : Option Span
deriving Repr, Inhabited

/-- Declared terminals, rules in order, and the start symbol if there is one. -/
structure Declaration where
  tokens : List Name
  rules : List Rule
  start : Option Name
deriving Repr, Inhabited

namespace Declaration

/-- The names of the rules, in order. -/
def ruleNames (d : Declaration) : List Name := d.rules.map (·.name)

/-- The symbol that analysis starts from: the declared one if it is not empty, else the first
rule's name, else `Start`. -/
def startName (d : Declaration) : Name :=
  match d.start with
  | some s => if s.isEmpty then d.ruleNames.headD "Start" else s
  | none => d.ruleNames.headD "Start"

end Declaration

/-! ## 1. Names that occur -/

namespace Expr

mutual

/-- The leaves of an atom. -/
def atomLeaves : Atom → List Leaf
  | .leaf l _ _ => [l]
  | .group alternatives _ _ => leaves alternatives

/-- The leaves of a sequence. -/
def sequenceLeaves : List Atom → List Leaf
  | [] => []
  | a :: as => atomLeaves a ++ sequenceLeaves as

/-- The leaves of an expression, from left to right. -/
def leaves : List (List Atom) → List Leaf
  | [] => []
  | alternative :: rest => sequenceLeaves alternative ++ leaves rest

end

end Expr

/-- The name that a leaf reads as a symbol. -/
def Leaf.identifier? : Leaf → Option Name
  | .name n => some n
  | _ => none

/-- The text of a leaf that is a literal. -/
def Leaf.literal? : Leaf → Option Name
  | .literal t => some t
  | _ => none

namespace Declaration

/-- The leaves of all rules, in order. -/
def leaves (d : Declaration) : List Leaf := d.rules.flatMap fun r => Expr.leaves r.body

/-- The names that are read as symbols in the rules. -/
def identifiers (d : Declaration) : List Name := d.leaves.filterMap Leaf.identifier?

/-- The texts of the literals in the rules. -/
def literals (d : Declaration) : List Name := d.leaves.filterMap Leaf.literal?

/-- All names that occur. -/
def names (d : Declaration) : List Name :=
  d.tokens ++ d.ruleNames ++ d.start.toList ++ d.identifiers ++ d.literals

end Declaration

/-! ## 2. Redundant parentheses -/

/-- A sequence with one more pair of parentheses. -/
inductive Regrouped : List Atom → List Atom → Prop
  /-- Around a stretch, which may be empty. -/
  | around (before stretch after : List Atom) (span : Option Span) :
      Regrouped (before ++ stretch ++ after) (before ++ .group [stretch] .once span :: after)
  /-- Between an atom and its suffix. -/
  | behind (before after : List Atom) (a : Atom) {suffix : Suffix} (span : Option Span)
      (hs : suffix ∈ [.optional, .star, .plus]) :
      Regrouped (before ++ a.withSuffix suffix :: after)
        (before ++ .group [[a.withSuffix .once]] suffix span :: after)
  /-- Inside a group. -/
  | inside (before after : List Atom) {as bs : List Atom} (h : Regrouped as bs)
      (left right : List (List Atom)) (suffix : Suffix) (span : Option Span) :
      Regrouped (before ++ .group (left ++ as :: right) suffix span :: after)
        (before ++ .group (left ++ bs :: right) suffix span :: after)

/-- A declaration with one more pair of parentheses in one of its rules. -/
inductive Declaration.Regrouped : Declaration → Declaration → Prop
  | mk (d : Declaration) {as bs : List Atom} (h : Lookahead.Regrouped as bs)
      (before after : List Rule) (name : Name) (left right : List (List Atom))
      (span : Option Span) :
      Declaration.Regrouped
        { d with rules := before ++ ⟨name, left ++ as :: right, span⟩ :: after }
        { d with rules := before ++ ⟨name, left ++ bs :: right, span⟩ :: after }

end Lookahead
