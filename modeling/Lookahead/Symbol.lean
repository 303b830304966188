import Lookahead.Text.Basic

/-!
# Names, symbols and the end marker

A grammar speaks of its symbols by **name**, and a name is any text: nothing in this library looks
inside one, except to print it.  A declared name has a **kind**, and a symbol is a name together
with its kind.

One name is set aside.  The *end marker* `$` stands for the end of the input; it occurs in FOLLOW
and director sets and nowhere else, so it can never be declared.
-/

namespace Lookahead

/-- The name of a grammar symbol: any text, compared code point by code point. -/
abbrev Name := Text

/-- What a declared name stands for. -/
inductive Kind where
  | terminal
  | nonterminal
deriving DecidableEq, Repr, Inhabited

/-- The word for a kind. -/
def Kind.label : Kind → String
  | .terminal => "terminal"
  | .nonterminal => "nonterminal"

/-- A declared name with its kind. -/
structure Symbol where
  name : Name
  kind : Kind
deriving DecidableEq, Repr, Inhabited

/-- Whether the symbol is a terminal. -/
def Symbol.isTerminal (s : Symbol) : Bool := s.kind == .terminal

/-- The reserved name that stands for the end of the input. -/
def endMarker : Name := "$"

/-- The first occurrences of the names of a list, in order. -/
def firstOccurrences : List Name → List Name
  | [] => []
  | n :: ns => n :: (firstOccurrences ns).filter (· ≠ n)

@[simp] theorem firstOccurrences_nil : firstOccurrences [] = [] := rfl

theorem firstOccurrences_cons (n : Name) (ns : List Name) :
    firstOccurrences (n :: ns) = n :: (firstOccurrences ns).filter (· ≠ n) := rfl

@[simp] theorem mem_firstOccurrences {n : Name} {ns : List Name} :
    n ∈ firstOccurrences ns ↔ n ∈ ns := by
  induction ns with
  | nil => simp
  | cons m ms ih => by_cases h : n = m <;> simp [firstOccurrences_cons, ih, h]

theorem nodup_firstOccurrences (ns : List Name) : (firstOccurrences ns).Nodup := by
  induction ns with
  | nil => simp
  | cons n ns ih =>
    rw [firstOccurrences_cons, List.nodup_cons]
    exact ⟨by simp, ih.filter _⟩

/-- A list without repetitions is left as it is. -/
theorem firstOccurrences_eq_self {ns : List Name} (h : ns.Nodup) : firstOccurrences ns = ns := by
  induction ns with
  | nil => rfl
  | cons n ns ih =>
    rw [List.nodup_cons] at h
    rw [firstOccurrences_cons, ih h.2, List.filter_eq_self.2]
    intro m hm
    have : m ≠ n := fun e => h.1 (e ▸ hm)
    simpa using this

/-- Behind a list, only names that are not in it occur for the first time. -/
theorem firstOccurrences_append (ns ms : List Name) :
    firstOccurrences (ns ++ ms) =
      firstOccurrences ns ++ (firstOccurrences ms).filter (· ∉ ns) := by
  induction ns with
  | nil => exact (List.filter_eq_self.2 (by simp)).symm
  | cons n ns ih =>
    rw [List.cons_append, firstOccurrences_cons, firstOccurrences_cons, ih, List.filter_append,
      List.filter_filter, List.cons_append]
    simp only [List.mem_cons, not_or, Bool.decide_and, ne_eq]

/-- Names that have occurred already add nothing. -/
theorem firstOccurrences_append_of_subset {ns ms : List Name} (h : ∀ n ∈ ms, n ∈ ns) :
    firstOccurrences (ns ++ ms) = firstOccurrences ns := by
  rw [firstOccurrences_append, List.filter_eq_nil_iff.2, List.append_nil]
  simpa using h

/-- Repetitions can be left out beforehand. -/
@[simp] theorem firstOccurrences_firstOccurrences_append (ns ms : List Name) :
    firstOccurrences (firstOccurrences ns ++ ms) = firstOccurrences (ns ++ ms) := by
  rw [firstOccurrences_append, firstOccurrences_append,
    firstOccurrences_eq_self (nodup_firstOccurrences ns)]
  simp only [mem_firstOccurrences]

end Lookahead
