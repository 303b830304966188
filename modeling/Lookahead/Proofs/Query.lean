import Lookahead.Grammar.Query
import Lookahead.Proofs.First

/-!
# Questions about plain sequences

A sequence of declared names is read as it stands: a mark in it can only be a declared name, and
then it is a symbol like any other (`Grammar.firstOf_of_declared`).  The answer comes from the
tables, and by their exactness it says what can be derived from the sequence.

Neither is assumed of the grammar that its symbols are of any use.  A terminal counts for FIRST as
soon as it stands at the front of a sentential form, even if nothing but sentential forms comes of
it; and a non-terminal without productions has nothing in its FIRST.
-/

namespace Lookahead

theorem Catalog.requireAll_of_declared {c : Catalog} {u : List Name}
    (hu : ∀ n ∈ u, c.contains n = true) : c.requireAll u = .ok u := by
  have hfind : u.find? (! c.contains ·) = none := by
    rw [List.find?_eq_none]
    intro n hn
    simp [hu n hn]
  rw [Catalog.requireAll, hfind]

namespace Grammar

variable {g : Grammar}

/-- A sequence of declared names is not read as an extended one. -/
theorem readsExtended_of_declared {u : List Name} (hu : ∀ n ∈ u, g.catalog.contains n = true) :
    g.readsExtended u = false := by
  rw [readsExtended, List.any_eq_false]
  intro n hn
  simp [hu n hn]

theorem firstOf_of_declared {u : List Name} (hu : ∀ n ∈ u, g.catalog.contains n = true) :
    g.firstOf u = .ok (firstOfSequence g.first g.nullable u) := by
  rw [firstOf, readsExtended_of_declared hu, Catalog.requireAll_of_declared hu]
  rfl

/-- The tables of a grammar answer exactly. -/
theorem WellFormed.mem_firstOfSequence_iff (h : g.WellFormed) {u : List Name} {t : Name} :
    t ∈ (firstOfSequence g.first g.nullable u).1 ↔
      t ∈ g.catalog.terminals ∧ ∃ v, Derives g.productions u (t :: v) := by
  rw [h.tables]
  exact Lookahead.mem_firstOfSequence_iff h.checked

theorem WellFormed.firstOfSequence_snd_iff (h : g.WellFormed) {u : List Name} :
    (firstOfSequence g.first g.nullable u).2 = true ↔ Derives g.productions u [] := by
  rw [h.tables]
  exact firstOfSequence_snd_iff_derives h.checked

/-- **FIRST is exact.**  In a constructed grammar, a question about a sequence of declared names has
an answer.  The set holds the terminals at the front of the sequences derived from it and no other
name, and the sequence is found to be nullable exactly if the empty sequence is derived from it. -/
theorem firstOf_exact (h : g.IsConstructed) {u : List Name}
    (hu : ∀ n ∈ u, g.catalog.contains n = true) :
    ∃ first nullable, g.firstOf u = .ok (first, nullable) ∧
      (∀ t, t ∈ first ↔ t ∈ g.catalog.terminals ∧ ∃ v, Derives g.productions u (t :: v)) ∧
      (nullable = true ↔ Derives g.productions u []) :=
  ⟨_, _, firstOf_of_declared hu, fun _ => h.wellFormed.mem_firstOfSequence_iff,
    h.wellFormed.firstOfSequence_snd_iff⟩

/-- Left recursion, and behind the only letter a name without productions. -/
theorem mem_firstOf_leftRecursion :
    ∃ g, plain ["a"] ["S", "E"] [⟨"S", ["S", "E"]⟩, ⟨"S", ["a", "E"]⟩] (some "S") = .ok g ∧
      ∃ first nullable, g.firstOf ["S", "E"] = .ok (first, nullable) ∧ ("a" : Name) ∈ first := by
  let ps : List Production := [⟨"S", ["S", "E"]⟩, ⟨"S", ["a", "E"]⟩]
  have hg : plain ["a"] ["S", "E"] ps (some "S") =
      .ok (analyse (.frozen ["a"] ["S", "E"] (some "S")) ps) := rfl
  obtain ⟨first, nullable, hok, hfirst, -⟩ :=
    firstOf_exact ⟨_, _, _, _, Or.inl hg⟩ (u := ["S", "E"]) (by decide)
  have hS : Derives ps ["S"] ["a", "E"] := .of_mem (p := ⟨"S", ["a", "E"]⟩) (by decide)
  have ha : ("a" : Name) ∈ first := (hfirst "a").2 ⟨by decide, ["E", "E"], hS.append_right ["E"]⟩
  exact ⟨_, hg, first, nullable, hok, ha⟩

end Grammar

end Lookahead
