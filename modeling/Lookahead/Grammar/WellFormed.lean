import Lookahead.Grammar.Basic

/-!
# What a checked grammar satisfies

The checks at the door are made once, and from then on a grammar can be relied upon.  This module
says on what.  A catalog is **valid** if its two lists have no repetitions and no common name, the
end marker is in neither, and the start symbol, if there is one, is a declared non-terminal.  A
grammar is **well formed** if its catalog is valid and has a start symbol, its productions are
over the catalog, and its tables are those that the analyses find.

* `Catalog.valid_new`, `Catalog.valid_of_freeze`: freezing leads from valid catalogs to valid
  catalogs, whatever it is given.
* `Grammar.wellFormed_of_plain`, `Grammar.wellFormed_of_extended`: every way to a grammar ends at a
  well-formed one.  A grammar that was reached in one of these ways is **constructed**.
-/

namespace Lookahead

namespace Catalog

/-- No name is declared twice, the end marker is not declared, and the start symbol is; there is one
from the moment on when the catalog is frozen. -/
structure Valid (c : Catalog) : Prop where
  nodup_terminals : c.terminals.Nodup
  nodup_nonterminals : c.nonterminals.Nodup
  disjoint : ∀ n ∈ c.terminals, n ∉ c.nonterminals
  endMarker_notMem_terminals : endMarker ∉ c.terminals
  endMarker_notMem_nonterminals : endMarker ∉ c.nonterminals
  start_mem : ∀ s, c.start = some s → s ∈ c.nonterminals
  isFrozen_eq : c.isFrozen = c.start.isSome

theorem valid_new : new.Valid :=
  ⟨.nil, .nil, by simp [new], by simp [new], by simp [new], by simp [new], rfl⟩

theorem Valid.exists_start {c : Catalog} (hc : c.Valid) (h : c.isFrozen = true) :
    ∃ s, c.start = some s :=
  Option.isSome_iff_exists.1 (hc.isFrozen_eq ▸ h)

/-- Nothing is wrong with what a catalog is to be frozen with exactly if the kinds are disjoint,
the end marker is of neither, and the start symbol is a non-terminal. -/
theorem freezeFault?_eq_none_iff {ts ns : List Name} {start : Option Name} :
    freezeFault? ts ns start = none ↔
      (∀ n ∈ ts, n ∉ ns) ∧ endMarker ∉ ts ∧ endMarker ∉ ns ∧ ∃ s ∈ ns, start = some s := by
  unfold freezeFault?
  split
  · rename_i n h
    have hn : n ∈ ns := by simpa using List.find?_some h
    exact ⟨fun h => absurd h (by simp),
      fun hd => absurd hn (hd.1 n (List.mem_of_find?_eq_some h))⟩
  · rename_i h
    have hd : ∀ n ∈ ts, n ∉ ns := by simpa using h
    split
    · rename_i he
      exact ⟨fun h => absurd h (by simp), fun h => absurd he (by simp [h.2.1, h.2.2.1])⟩
    · rename_i he
      rw [not_or] at he
      cases start with
      | none => simp
      | some s =>
        by_cases hs : s ∈ ns
        · simpa [hs, he] using hd
        · simp [hs]

theorem valid_of_freeze {c c' : Catalog} (hc : c.Valid) {ts ns : List Name} {s : Option Name}
    (h : c.freeze ts ns s = .ok c') : c'.Valid := by
  unfold freeze at h
  split at h
  · cases h; exact hc
  · split at h
    · cases h
    · rename_i hf
      obtain ⟨hd, ht, hn, s, hs, rfl⟩ := freezeFault?_eq_none_iff.1 hf
      cases h
      exact ⟨nodup_firstOccurrences ts, nodup_firstOccurrences ns, by simpa using hd,
        by simpa using ht, by simpa using hn, by simpa using hs, rfl⟩

/-- A catalog that has just been frozen is so. -/
theorem isFrozen_of_freeze {c c' : Catalog} {ts ns : List Name} {s : Option Name}
    (h : c.freeze ts ns s = .ok c') : c'.isFrozen = true := by
  unfold freeze at h
  split at h
  · rename_i hc
    cases h; exact hc
  · split at h
    · cases h
    · rename_i hf
      obtain ⟨_, _, _, s, _, rfl⟩ := freezeFault?_eq_none_iff.1 hf
      cases h
      rfl

/-- Whether the production is over the catalog. -/
def Declares (c : Catalog) (p : Production) : Prop :=
  p.lhs ∈ c.nonterminals ∧ ∀ n ∈ p.rhs, n ∈ c.terminals ∨ n ∈ c.nonterminals

theorem productionFault?_eq_none_iff {c : Catalog} {p : Production} :
    c.productionFault? p = none ↔ c.Declares p := by
  unfold productionFault? Declares
  split
  · rename_i h
    have hl : p.lhs ∈ c.nonterminals := by simpa using h
    simp [hl]
  · rename_i h
    have hl : p.lhs ∉ c.nonterminals := by simpa using h
    simp [hl]

theorem checkProductions_eq_ok_iff {c : Catalog} {ps qs : List Production} :
    c.checkProductions ps = .ok qs ↔ ps = qs ∧ ∀ p ∈ ps, c.Declares p := by
  unfold checkProductions
  split
  · rename_i e h
    refine ⟨fun h => absurd h (by simp), fun ⟨_, hd⟩ => ?_⟩
    obtain ⟨p, hp, he⟩ := List.exists_of_findSome?_eq_some h
    rw [productionFault?_eq_none_iff.2 (hd p hp)] at he
    cases he
  · rename_i h
    rw [List.findSome?_eq_none_iff] at h
    simp only [Except.ok.injEq, iff_self_and]
    exact fun _ p hp => productionFault?_eq_none_iff.1 (h p hp)

end Catalog

namespace Grammar

/-- The catalog is valid and has a start symbol, the productions are over it, and the tables are
those that the analyses find. -/
structure WellFormed (g : Grammar) : Prop where
  valid : g.catalog.Valid
  isFrozen : g.catalog.isFrozen = true
  declares : ∀ p ∈ g.productions, g.catalog.Declares p
  tables : g = analyse g.catalog g.productions

theorem wellFormed_of_plain {ts ns : List Name} {ps : List Production} {s : Option Name}
    {g : Grammar} (h : plain ts ns ps s = .ok g) : g.WellFormed := by
  unfold plain at h
  split at h
  · cases h
  · rename_i c hc
    cases hp : c.checkProductions ps with
    | error e => rw [hp] at h; cases h
    | ok qs =>
      rw [hp] at h
      cases h
      obtain ⟨rfl, hd⟩ := Catalog.checkProductions_eq_ok_iff.1 hp
      exact ⟨Catalog.valid_of_freeze Catalog.valid_new hc, Catalog.isFrozen_of_freeze hc, hd, rfl⟩

theorem wellFormed_of_extended {ts ns : List Name} {ps : List Production} {s : Option Name}
    {g : Grammar} (h : extended ts ns ps s = .ok g) : g.WellFormed := by
  unfold extended at h
  split at h
  · cases h
  · exact wellFormed_of_plain h

theorem wellFormed_of_ofBnf {b : Bnf} {g : Grammar} (h : ofBnf b = .ok g) : g.WellFormed :=
  wellFormed_of_plain h

/-- Whether the grammar is made of some declared names, productions and start symbol, with the
marks in the productions taken as names or lowered. -/
def IsConstructed (g : Grammar) : Prop :=
  ∃ ts ns ps s, plain ts ns ps s = .ok g ∨ extended ts ns ps s = .ok g

theorem IsConstructed.wellFormed {g : Grammar} (h : g.IsConstructed) : g.WellFormed := by
  obtain ⟨ts, ns, ps, s, h | h⟩ := h
  · exact wellFormed_of_plain h
  · exact wellFormed_of_extended h

end Grammar

end Lookahead
