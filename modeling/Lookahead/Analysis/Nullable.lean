import Lookahead.Grammar.Catalog
import Lookahead.NameSet

/-!
# Saturation and nullable non-terminals

The analyses are least solutions, found by repetition: a **pass** over the productions adds what
follows from what is known so far, and passes are repeated until one adds nothing.  Every pass
that does add something uses up *room*, the number of additions that are still possible, so the
repetition ends by itself.  The result keeps the number of passes beside the state reached, the
last one, which adds nothing, included.

The first analysis asks for the **nullable** non-terminals, those that derive the empty word.  A
non-terminal is nullable if one of its right-hand sides consists of nullable non-terminals only, the
empty right-hand side among them.  Starting from no non-terminal at all, a pass over the productions
adds the left-hand sides that this rule gives, each one counting at once for the productions behind
it.
-/

namespace Lookahead

/-! ## 1. Saturation -/

/-- Where a repetition came to rest, and after how many passes. -/
structure Saturated (σ : Type) where
  state : σ
  passes : Nat

/-- Repeats a pass as long as it uses up room. -/
def saturate {σ : Type} (pass : σ → σ) (room : σ → Nat) (s : σ) : Saturated σ :=
  let t := pass s
  if _h : room t < room s then
    let r := saturate pass room t
    ⟨r.state, r.passes + 1⟩
  else ⟨t, 1⟩
termination_by room s

/-- What a pass keeps, the repetition keeps. -/
theorem saturate_induction {σ : Type} {pass : σ → σ} {room : σ → Nat} {P : σ → Prop}
    (step : ∀ s, P s → P (pass s)) (s : σ) (h : P s) : P (saturate pass room s).state := by
  fun_induction saturate pass room s with
  | case1 s t _ r ih => exact ih (step s h)
  | case2 s t _ => exact step s h

/-! ## 2. Nullable non-terminals -/

/-- Adds the left-hand side of a production whose right-hand side is known to be nullable. -/
def nullableStep (known : NameSet) (p : Production) : NameSet :=
  if p.rhs.all (· ∈ known) then known.insert p.lhs else known

/-- One pass over the productions. -/
def nullablePass (productions : List Production) (known : NameSet) : NameSet :=
  productions.foldl nullableStep known

/-- The repetition that finds the nullable non-terminals. -/
def nullableRun (c : Catalog) (productions : List Production) : Saturated NameSet :=
  saturate (nullablePass productions) (fun s => c.nonterminals.length - s.size) ∅

/-- The nullable non-terminals. -/
def nullableSet (c : Catalog) (productions : List Production) : NameSet :=
  (nullableRun c productions).state

end Lookahead
