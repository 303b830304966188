import Lookahead.Symbol

/-!
# Productions and alternatives

A production `A -> X₁ … Xₙ` lets the non-terminal `A` be replaced by the sequence on its right.
The alternatives of `A` are its productions in the order in which they were declared, numbered
from zero; two productions with equal right-hand sides are two alternatives.
-/

namespace Lookahead

/-- A left-hand side and the sequence it may be replaced by. -/
structure Production where
  lhs : Name
  rhs : List Name
deriving DecidableEq, Repr, Inhabited

/-- The `index`-th production of a non-terminal. -/
structure Alternative where
  lhs : Name
  index : Nat
  rhs : List Name
deriving DecidableEq, Repr, Inhabited

/-- A sequence of names as it is shown: separated by blanks, and `ε` if there is none. -/
def renderSequence (names : List Name) : Text :=
  if names.isEmpty then "ε" else Text.join " " names

/-- A production as it is shown. -/
def Production.render (p : Production) : Text :=
  p.lhs ++ " -> " ++ renderSequence p.rhs

/-- An alternative as it is shown. -/
def Alternative.render (a : Alternative) : Text :=
  a.lhs ++ "#" ++ toString a.index ++ " -> " ++ renderSequence a.rhs

/-- The right-hand sides of one non-terminal, in order. -/
def rhssOf (productions : List Production) (lhs : Name) : List (List Name) :=
  (productions.filter (·.lhs = lhs)).map (·.rhs)

/-- The alternatives of one non-terminal, in order. -/
def alternativesOf (productions : List Production) (lhs : Name) : List Alternative :=
  (rhssOf productions lhs).mapIdx fun i rhs => ⟨lhs, i, rhs⟩

@[simp] theorem rhssOf_nil (lhs : Name) : rhssOf [] lhs = [] := rfl

theorem rhssOf_append (productions productions' : List Production) (lhs : Name) :
    rhssOf (productions ++ productions') lhs =
      rhssOf productions lhs ++ rhssOf productions' lhs := by
  simp [rhssOf]

/-- A name that is no left-hand side has no right-hand sides. -/
theorem rhssOf_eq_nil {productions : List Production} {lhs : Name}
    (h : ∀ p ∈ productions, p.lhs ≠ lhs) : rhssOf productions lhs = [] := by
  simpa [rhssOf] using h

/-- Right-hand sides under one name. -/
theorem rhssOf_eq_map {productions : List Production} {lhs : Name}
    (h : ∀ p ∈ productions, p.lhs = lhs) : rhssOf productions lhs = productions.map (·.rhs) := by
  rw [rhssOf, List.filter_eq_self.2 fun p hp => decide_eq_true (h p hp)]

/-- The productions of a left-hand side, put together again. -/
theorem map_rhssOf (productions : List Production) (lhs : Name) :
    (rhssOf productions lhs).map (⟨lhs, ·⟩) = productions.filter (·.lhs = lhs) := by
  rw [rhssOf, List.map_map, List.map_congr_left, List.map_id]
  intro p hp
  obtain rfl : p.lhs = lhs := by simpa using (List.mem_filter.1 hp).2
  rfl

theorem mem_rhssOf {productions : List Production} {lhs : Name} {rhs : List Name} :
    rhs ∈ rhssOf productions lhs ↔ ⟨lhs, rhs⟩ ∈ productions := by
  simp only [rhssOf, List.mem_map, List.mem_filter, decide_eq_true_eq]
  constructor
  · rintro ⟨⟨_, _⟩, ⟨h, rfl⟩, rfl⟩
    exact h
  · exact fun h => ⟨_, ⟨h, rfl⟩, rfl⟩

theorem mem_alternativesOf {productions : List Production} {lhs : Name} {a : Alternative} :
    a ∈ alternativesOf productions lhs ↔
      a.lhs = lhs ∧ (rhssOf productions lhs)[a.index]? = some a.rhs := by
  simp only [alternativesOf, List.mem_mapIdx, List.getElem?_eq_some_iff]
  constructor
  · rintro ⟨i, h, rfl⟩
    exact ⟨rfl, h, rfl⟩
  · rintro ⟨rfl, h, e⟩
    exact ⟨a.index, h, by rw [e]⟩

end Lookahead
