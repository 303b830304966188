import Lookahead.Extended.Bracketed

/-!
# Matching brackets

A list of names is **balanced** if its brackets match: it consists of names that are no brackets,
and of balanced lists between an opening bracket and the closing one of its kind.  The bar is no
bracket, and neither is a name that is no mark.

A list may also break off inside some brackets.  It **leaves open** these brackets, innermost
first, if it consists of balanced lists with these brackets between them.  So balanced lists are
those that leave nothing open, and a list that leaves some brackets open is the beginning of a
balanced one (`LeavesOpen.balanced_append`).  A list in which a closing bracket meets an innermost
bracket of another kind, or none, is neither; it **mismatches** at the first such bracket.
-/

namespace Lookahead

/-- Whether a name is a bracket. -/
def IsBracket (n : Name) : Prop :=
  ∃ b : Bracket, n = (Mark.opening b).name ∨ n = (Mark.closing b).name

/-- The brackets of a list match. -/
inductive Balanced : List Name → Prop
  | nil : Balanced []
  | cons {n : Name} {ns : List Name} (hn : ¬ IsBracket n) (h : Balanced ns) : Balanced (n :: ns)
  | group (b : Bracket) {ns ms : List Name} (h : Balanced ns) (h' : Balanced ms) :
      Balanced ((Mark.opening b).name :: (ns ++ (Mark.closing b).name :: ms))

/-- The brackets that a list leaves open, innermost first. -/
inductive LeavesOpen : List Bracket → List Name → Prop
  | nil {ns : List Name} (h : Balanced ns) : LeavesOpen [] ns
  | cons {bs : List Bracket} {b : Bracket} {ns ms : List Name} (h : LeavesOpen bs ns)
      (h' : Balanced ms) : LeavesOpen (b :: bs) (ns ++ (Mark.opening b).name :: ms)

/-- The first closing bracket that does not close the innermost open one is of that kind. -/
def Mismatches (ns : List Name) (b : Bracket) : Prop :=
  ∃ before after bs, ns = before ++ (Mark.closing b).name :: after ∧ LeavesOpen bs before ∧
    bs.head? ≠ some b

theorem Balanced.append {ns ms : List Name} (h : Balanced ns) (h' : Balanced ms) :
    Balanced (ns ++ ms) := by
  induction h with
  | nil => exact h'
  | cons hn _ ih => exact .cons hn ih
  | group b h _ _ ih =>
    rw [List.cons_append, List.append_assoc]
    exact .group b h ih

/-- A balanced list behind does not change what is left open. -/
theorem LeavesOpen.append {bs : List Bracket} {ns ms : List Name} (h : LeavesOpen bs ns)
    (hm : Balanced ms) : LeavesOpen bs (ns ++ ms) := by
  cases h with
  | nil h => exact .nil (h.append hm)
  | cons h h' =>
    rw [List.append_assoc, List.cons_append]
    exact .cons h (h'.append hm)

/-- An opening bracket is left open. -/
theorem LeavesOpen.opening {bs : List Bracket} {ns : List Name} (h : LeavesOpen bs ns)
    (b : Bracket) : LeavesOpen (b :: bs) (ns ++ [(Mark.opening b).name]) := .cons h .nil

/-- A closing bracket closes the innermost one of its kind. -/
theorem LeavesOpen.closing {bs : List Bracket} {b : Bracket} {ns : List Name}
    (h : LeavesOpen (b :: bs) ns) : LeavesOpen bs (ns ++ [(Mark.closing b).name]) := by
  cases h with
  | cons h h' =>
    rw [List.append_assoc, List.cons_append]
    exact h.append (.group b h' .nil)

/-- Closing all brackets that are left open gives a balanced list. -/
theorem LeavesOpen.balanced_append {bs : List Bracket} {ns : List Name} (h : LeavesOpen bs ns) :
    Balanced (ns ++ bs.map fun b => (Mark.closing b).name) := by
  induction bs generalizing ns with
  | nil =>
    cases h with
    | nil h => simpa using h
  | cons b bs ih => simpa using ih h.closing

end Lookahead
