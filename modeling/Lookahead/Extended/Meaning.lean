import Lookahead.Extended.Declaration
import Mathlib.Algebra.Order.BigOperators.Group.List
import Mathlib.Computability.Language
import Mathlib.Order.FixedPoints
import Mathlib.Order.CompletePartialOrder

/-!
# What an expression means

An expression is a way to write a language over the names.  A name in it stands for a language
too, and which one is said by a **valuation**.  Given a valuation, alternatives are united, atoms
in a row are concatenated, and a suffix does what it says: `x?` adds the empty word, `x*` takes
words of `x` in any number, `x+` at least one.  A literal stands for itself, whatever the
valuation says.

A list of rules is then a system of equations between languages, one for each name that is the
name of a rule; every other name stands for itself.  A valuation that satisfies them all is a
**solution**, and the meaning of the rules is the least of them.

## 1. Monotony

Only unions, products and stars occur, so a greater valuation gives every expression a greater
language (`Expr.language_mono`).

## 2. The least solution

Hence a least solution exists (`isLeast_meaning`).
-/

namespace Lookahead

open scoped Computability

/-- A language for each name. -/
abbrev Valuation := Name → Language Name

/-- What a suffix makes of the language of what it stands behind.  A word without a meaning
changes nothing. -/
def Suffix.language (X : Language Name) : Suffix → Language Name
  | .once => X
  | .optional => 1 + X
  | .star => X∗
  | .plus => X * X∗
  | .other _ => X

/-- The language of a leaf. -/
def Leaf.language (v : Valuation) : Leaf → Language Name
  | .name n => v n
  | .literal t => {[t]}
  | .unknown => 1

namespace Expr

mutual

/-- The language of an atom. -/
def atomLanguage (v : Valuation) : Atom → Language Name
  | .leaf l suffix _ => suffix.language (l.language v)
  | .group alternatives suffix _ => suffix.language (language v alternatives)

/-- The language of a sequence. -/
def sequenceLanguage (v : Valuation) : List Atom → Language Name
  | [] => 1
  | a :: as => atomLanguage v a * sequenceLanguage v as

/-- The language of an expression. -/
def language (v : Valuation) : List (List Atom) → Language Name
  | [] => 0
  | alternative :: rest => sequenceLanguage v alternative + language v rest

end

end Expr

/-- The language that the rules of one name make up together. -/
def rulesLanguage (v : Valuation) (rules : List Rule) (n : Name) : Language Name :=
  ((rules.filter (·.name = n)).map fun r => Expr.language v r.body).sum

/-- The right-hand sides of the equations that a list of rules is. -/
def equations (rules : List Rule) (v : Valuation) : Valuation := fun n =>
  if n ∈ rules.map (·.name) then rulesLanguage v rules n else {[n]}

/-- Whether the valuation satisfies the rules, read as equations. -/
def Valuation.Solves (v : Valuation) (rules : List Rule) : Prop := equations rules v = v

/-! ## 1. Monotony -/

theorem Suffix.language_mono {X Y : Language Name} (h : X ≤ Y) (s : Suffix) :
    s.language X ≤ s.language Y := by
  cases s with
  | once => exact h
  | optional => exact add_le_add_right h 1
  | star => exact kstar_mono h
  | plus => exact mul_le_mul' h (kstar_mono h)
  | other _ => exact h

theorem Leaf.language_mono {v w : Valuation} (h : v ≤ w) (l : Leaf) :
    l.language v ≤ l.language w := by
  cases l with
  | name n => exact h n
  | literal t => exact le_rfl
  | unknown => exact le_rfl

namespace Expr

mutual

theorem atomLanguage_mono {v w : Valuation} (h : v ≤ w) (a : Atom) :
    atomLanguage v a ≤ atomLanguage w a := by
  match a with
  | .leaf l suffix _ =>
    rw [atomLanguage, atomLanguage]
    exact suffix.language_mono (l.language_mono h)
  | .group alternatives suffix _ =>
    rw [atomLanguage, atomLanguage]
    exact suffix.language_mono (language_mono h alternatives)

theorem sequenceLanguage_mono {v w : Valuation} (h : v ≤ w) (as : List Atom) :
    sequenceLanguage v as ≤ sequenceLanguage w as := by
  match as with
  | [] => exact le_rfl
  | a :: as =>
    rw [sequenceLanguage, sequenceLanguage]
    exact mul_le_mul' (atomLanguage_mono h a) (sequenceLanguage_mono h as)

theorem language_mono {v w : Valuation} (h : v ≤ w) (e : List (List Atom)) :
    language v e ≤ language w e := by
  match e with
  | [] => exact le_rfl
  | alternative :: rest =>
    rw [language, language]
    exact add_le_add (sequenceLanguage_mono h alternative) (language_mono h rest)

end

end Expr

theorem equations_mono (rules : List Rule) : Monotone (equations rules) := by
  intro v w h n
  simp only [equations]
  split
  · exact List.sum_le_sum fun r _ => Expr.language_mono h r.body
  · exact le_rfl

/-! ## 2. The least solution -/

/-- What the rules mean: the least solution of their equations. -/
def meaning (rules : List Rule) : Valuation := OrderHom.lfp ⟨equations rules, equations_mono rules⟩

/-- The meaning of the rules solves them, and is contained in every solution. -/
theorem isLeast_meaning (rules : List Rule) :
    IsLeast {v : Valuation | v.Solves rules} (meaning rules) :=
  ⟨OrderHom.map_lfp ⟨equations rules, equations_mono rules⟩, fun _ h =>
    OrderHom.lfp_le ⟨equations rules, equations_mono rules⟩ (le_of_eq h)⟩

end Lookahead
