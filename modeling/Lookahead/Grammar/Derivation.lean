import Lookahead.Grammar.Basic
import Mathlib.Logic.Relation

/-!
# Derivations

What a grammar means is said by derivations.  A **step** replaces one occurrence of a left-hand
side by one of its right-hand sides, and a sequence **derives** what any number of steps make of
it.  The sequences met on the way are *sentential forms*, and those in which only terminals are
left are *words*.  Nothing here looks at the tables of the analyses: what they say about a
grammar is measured against the relations of this module.

## 1. Steps in any place

`Derives` is the reflexive and transitive closure of `Step`.  A derivation can be carried out
inside any context (`Derives.append`).

## 2. Steps at the leftmost place

A parser works on the leftmost non-terminal.  `LeftDerives` keeps the alternatives that were
chosen one after the other, so that two leftmost derivations are the same if these lists are.

## 3. Looking ahead

A parser that looks one symbol ahead sees the first symbol of what is left of the word or, if
nothing is left, the end marker.  A grammar is **predictive** if in every situation that a
leftmost derivation reaches, this symbol leaves no choice between the alternatives that can still
come to a good end.
-/

namespace Lookahead

/-! ## 1. Steps in any place -/

/-- A production replaces one occurrence of its left-hand side. -/
inductive Step (ps : List Production) : List Name → List Name → Prop
  | mk {p : Production} (h : p ∈ ps) (before after : List Name) :
      Step ps (before ++ p.lhs :: after) (before ++ p.rhs ++ after)

/-- Some steps, or none, lead from one sequence to the other. -/
def Derives (ps : List Production) : List Name → List Name → Prop :=
  Relation.ReflTransGen (Step ps)

/-- At least one step leads from one sequence to the other. -/
def DerivesProperly (ps : List Production) : List Name → List Name → Prop :=
  Relation.TransGen (Step ps)

variable {ps : List Production}

theorem Step.append_left {u v : List Name} (h : Step ps u v) (before : List Name) :
    Step ps (before ++ u) (before ++ v) := by
  obtain ⟨hp, b, a⟩ := h
  simpa using Step.mk hp (before ++ b) a

theorem Step.append_right {u v : List Name} (h : Step ps u v) (after : List Name) :
    Step ps (u ++ after) (v ++ after) := by
  obtain ⟨hp, b, a⟩ := h
  simpa using Step.mk hp b (a ++ after)

namespace Derives

theorem refl (u : List Name) : Derives ps u u := Relation.ReflTransGen.refl

theorem trans {u v w : List Name} (h : Derives ps u v) (h' : Derives ps v w) : Derives ps u w :=
  Relation.ReflTransGen.trans h h'

theorem append_left {u v : List Name} (h : Derives ps u v) (before : List Name) :
    Derives ps (before ++ u) (before ++ v) := by
  induction h with
  | refl => exact refl _
  | tail _ step ih => exact ih.tail (step.append_left before)

theorem append_right {u v : List Name} (h : Derives ps u v) (after : List Name) :
    Derives ps (u ++ after) (v ++ after) := by
  induction h with
  | refl => exact refl _
  | tail _ step ih => exact ih.tail (step.append_right after)

/-- Two sequences in a row are derived from independently. -/
theorem append {u v u' v' : List Name} (h : Derives ps u v) (h' : Derives ps u' v') :
    Derives ps (u ++ u') (v ++ v') :=
  (h.append_right u').trans (h'.append_left v)

/-- A left-hand side derives each of its right-hand sides. -/
theorem of_mem {p : Production} (h : p ∈ ps) : Derives ps [p.lhs] p.rhs := by
  have step := Step.mk h [] []
  rw [List.append_nil] at step
  exact .single step

/-- With more productions, more can be derived. -/
theorem mono {qs : List Production} (h : ps ⊆ qs) {u v : List Name}
    (hd : Derives ps u v) : Derives qs u v := by
  induction hd with
  | refl => exact .refl u
  | tail _ step ih =>
    obtain ⟨hp, before, after⟩ := step
    exact ih.tail (.mk (h hp) before after)

end Derives

/-! ## 2. Steps at the leftmost place -/

/-- Whether only terminals are left. -/
def Catalog.IsWord (c : Catalog) (w : List Name) : Prop := ∀ n ∈ w, n ∈ c.terminals

/-- An alternative replaces the leftmost non-terminal. -/
inductive LeftStep (c : Catalog) (ps : List Production) :
    List Name → Alternative → List Name → Prop
  | mk {a : Alternative} (h : a ∈ alternativesOf ps a.lhs) {before : List Name}
      (hb : c.IsWord before) (after : List Name) :
      LeftStep c ps (before ++ a.lhs :: after) a (before ++ a.rhs ++ after)

/-- The alternatives, applied in order to the leftmost non-terminal, lead from one sequence to the
other. -/
inductive LeftDerives (c : Catalog) (ps : List Production) :
    List Name → List Alternative → List Name → Prop
  | nil (u : List Name) : LeftDerives c ps u [] u
  | cons {u v w : List Name} {a : Alternative} {as : List Alternative}
      (step : LeftStep c ps u a v) (rest : LeftDerives c ps v as w) :
      LeftDerives c ps u (a :: as) w

theorem LeftStep.step {c : Catalog} {u v : List Name} {a : Alternative}
    (h : LeftStep c ps u a v) : Step ps u v := by
  obtain ⟨h, _, after⟩ := h
  have hp : (⟨a.lhs, a.rhs⟩ : Production) ∈ ps :=
    mem_rhssOf.1 (List.mem_of_getElem? (mem_alternativesOf.1 h).2)
  exact Step.mk hp _ after

theorem LeftDerives.derives {c : Catalog} {u v : List Name} {as : List Alternative}
    (h : LeftDerives c ps u as v) : Derives ps u v := by
  induction h with
  | nil u => exact .refl u
  | cons step _ ih => exact Relation.ReflTransGen.head step.step ih

theorem LeftDerives.trans {c : Catalog} {u v w : List Name} {as bs : List Alternative}
    (h : LeftDerives c ps u as v) (h' : LeftDerives c ps v bs w) :
    LeftDerives c ps u (as ++ bs) w := by
  induction h with
  | nil _ => exact h'
  | cons step _ ih => exact .cons step (ih h')

/-! ## 3. Looking ahead -/

/-- The symbol that a parser sees in front of what is left of a word. -/
def lookahead (w : List Name) : Name := w.headD endMarker

@[simp] theorem lookahead_nil : lookahead [] = endMarker := rfl

@[simp] theorem lookahead_cons (n : Name) (w : List Name) : lookahead (n :: w) = n := rfl

namespace Grammar

/-- Whether a word can be derived from the sequence. -/
def IsProductive (g : Grammar) (u : List Name) : Prop :=
  ∃ w, g.catalog.IsWord w ∧ Derives g.productions u w

/-- Whether the name occurs in a sentential form derived from the start symbol. -/
def IsReachable (g : Grammar) (n : Name) : Prop :=
  ∃ s before after, g.catalog.start = some s ∧
    Derives g.productions [s] (before ++ n :: after)

/-- Whether every declared non-terminal can be reached and derives a word. -/
def IsReduced (g : Grammar) : Prop :=
  ∀ n ∈ g.catalog.nonterminals, g.IsReachable n ∧ g.IsProductive [n]

/-- Whether in every leftmost sentential form the symbol ahead determines the alternative. -/
def IsPredictive (g : Grammar) : Prop :=
  ∀ (s : Name) (before after : List Name) (as : List Alternative) (n : Name)
    (a b : Alternative) (x y : List Name),
    g.catalog.start = some s →
    LeftDerives g.catalog g.productions [s] as (before ++ n :: after) →
    g.catalog.IsWord before →
    a ∈ alternativesOf g.productions n → b ∈ alternativesOf g.productions n →
    Derives g.productions (a.rhs ++ after) x → g.catalog.IsWord x →
    Derives g.productions (b.rhs ++ after) y → g.catalog.IsWord y →
    lookahead x = lookahead y → a = b

end Grammar

end Lookahead
