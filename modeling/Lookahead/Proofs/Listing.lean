import Lookahead.Proofs.Query
import Lookahead.Proofs.Reordering

/-!
# What a grammar lists

The director sets of a grammar are stored in rows, one for each non-terminal, and its conflicts in
one list.  Productions may come in any order, mixed between left-hand sides and more than once, and
a non-terminal may have none.

## 1. Places in a row

The alternative at a place of a row has the place as its number, and is the production at this
place among those of its name (`getElem?_alternativesOf_iff`, `getElem?_filter_lhs_iff`).

## 2. Rows

Hence the rows together hold each production once, equal ones apart
(`Grammar.WellFormed.perm_tabulated`).  The set of an alternative is made of the answers to the
questions about its two sides (`Grammar.WellFormed.directorOf_eq`).

## 3. Conflicts

A conflict is two places of one row whose sets share a name (`Grammar.WellFormed.listsConflicts`).
The list follows the order of the catalog and then of the places, and no pair is listed twice.
-/

namespace Lookahead

variable {ps : List Production} {n : Name} {k : Nat} {a : Alternative}

/-! ## 1. Places in a row -/

/-- The number of an alternative is its place. -/
theorem getElem?_alternativesOf_iff :
    (alternativesOf ps n)[k]? = some a ↔ a ∈ alternativesOf ps n ∧ a.index = k := by
  rw [mem_alternativesOf, alternativesOf, List.getElem?_mapIdx, Option.map_eq_some_iff]
  constructor
  · rintro ⟨rhs, hrhs, rfl⟩
    exact ⟨⟨rfl, hrhs⟩, rfl⟩
  · rintro ⟨⟨rfl, hrhs⟩, rfl⟩
    exact ⟨a.rhs, hrhs, rfl⟩

/-- The productions of a name, by their places among them. -/
theorem getElem?_filter_lhs_iff {rhs : List Name} :
    (ps.filter (·.lhs = n))[k]? = some ⟨n, rhs⟩ ↔ (rhssOf ps n)[k]? = some rhs := by
  rw [← map_rhssOf, List.getElem?_map, Option.map_eq_some_iff]
  simp

theorem map_rhs_alternativesOf (ps : List Production) (n : Name) :
    (alternativesOf ps n).map (·.rhs) = rhssOf ps n := by
  refine List.ext_getElem (by simp [alternativesOf]) fun i _ _ => ?_
  simp [alternativesOf]

/-- The alternatives of different names are different. -/
theorem nodup_allAlternatives {c : Catalog} (hc : c.nonterminals.Nodup) (ps : List Production) :
    (c.allAlternatives ps).Nodup := by
  rw [Catalog.allAlternatives, List.nodup_flatMap]
  refine ⟨fun n _ => ?_, hc.imp fun {m n} hmn a ha hb => hmn ?_⟩
  · refine (pairwise_index_alternativesOf ps n).imp fun {a b} hlt => ?_
    rintro rfl
    exact Nat.lt_irrefl _ hlt
  · rw [← (mem_alternativesOf.1 ha).1, (mem_alternativesOf.1 hb).1]

namespace Grammar

variable {g : Grammar}

/-! ## 2. Rows -/

/-- The alternatives that have a director set, row by row. -/
def tabulated (g : Grammar) : List Alternative := g.director.flatMap fun row => row.2.map (·.1)

theorem WellFormed.tabulated_eq (h : g.WellFormed) :
    g.tabulated = g.catalog.allAlternatives g.productions := by
  rw [tabulated, h.director_eq, List.flatMap_map, Catalog.allAlternatives]
  simp [Function.comp_def]

/-- Each production is an alternative in one of the rows, at its own place. -/
theorem WellFormed.perm_tabulated (h : g.WellFormed) : g.tabulated.Perm
    ((List.finRange g.productions.length).map (alternativeAt g.productions)) := by
  have hplaces : ((List.finRange g.productions.length).map (alternativeAt g.productions)).Nodup :=
    (List.nodup_finRange _).map (alternativeAt_injective g.productions)
  rw [h.tabulated_eq]
  refine (List.perm_ext_iff_of_nodup
    (nodup_allAlternatives h.valid.nodup_nonterminals g.productions) hplaces).2 fun a => ?_
  rw [Catalog.allAlternatives, List.mem_flatMap, List.mem_map]
  constructor
  · rintro ⟨n, -, ha⟩
    obtain ⟨i, -, rfl⟩ := mem_alternativesOf_iff_exists_place.1 ha
    exact ⟨i, List.mem_finRange i, rfl⟩
  · rintro ⟨i, -, rfl⟩
    refine ⟨(g.productions.get i).lhs, h.checked.lhs_mem (List.get_mem _ i), ?_⟩
    exact mem_alternativesOf_iff_exists_place.2 ⟨i, rfl, rfl⟩

/-- A director set is made of the answers to two questions. -/
theorem WellFormed.directorOf_eq (h : g.WellFormed) (ha : a ∈ alternativesOf g.productions n) :
    ∃ first nullable follow, g.firstOf a.rhs = .ok (first, nullable) ∧
      g.followSet n = .ok follow ∧
      g.directorOf a = if ∀ m ∈ a.rhs, m ∈ g.nullable then first ∪ follow else first := by
  obtain ⟨rfl, hrhs⟩ := mem_alternativesOf.1 ha
  have hp : ⟨a.lhs, a.rhs⟩ ∈ g.productions := mem_rhssOf.1 (List.mem_of_getElem? hrhs)
  refine ⟨_, _, g.follow.get a.lhs,
    firstOf_of_declared fun m hm => Catalog.contains_iff.2 (h.checked.rhs_mem hp hm), ?_, ?_⟩
  · rw [followSet, Catalog.requireNonterminal_of_mem (h.checked.lhs_mem hp)]
    rfl
  · rw [directorOf, directorSet]
    simp only [Lookahead.firstOfSequence_snd_iff]

/-- Whether the rows hold the alternatives and their director sets.  There is a row for each
non-terminal, in the order of the catalog, and this row is what questions are answered with.  At
each place it has the production that stands there among those of its name, and together the rows
have every production once.  A set is FIRST of the right-hand side, and if all names in it are
nullable, FOLLOW of the left-hand side as well. -/
structure HoldsAlternatives (g : Grammar) : Prop where
  names_eq : g.director.map (·.1) = g.catalog.nonterminals
  answers : ∀ row ∈ g.director, g.directorSets row.1 = .ok row.2 ∧
    g.alternatives row.1 = .ok (row.2.map (·.1)) ∧
    g.productionsFor row.1 = .ok (row.2.map (·.1.rhs))
  place_iff : ∀ row ∈ g.director, ∀ (k : Nat) (a : Alternative), (row.2.map (·.1))[k]? = some a ↔
    a.lhs = row.1 ∧ a.index = k ∧
      (g.productions.filter (·.lhs = row.1))[k]? = some ⟨row.1, a.rhs⟩
  perm : g.tabulated.Perm
    ((List.finRange g.productions.length).map (alternativeAt g.productions))
  nodup : g.tabulated.Nodup
  sets : ∀ row ∈ g.director, ∀ entry ∈ row.2, ∃ first nullable follow,
    g.firstOf entry.1.rhs = .ok (first, nullable) ∧ g.followSet row.1 = .ok follow ∧
      entry.2 = if ∀ m ∈ entry.1.rhs, m ∈ g.nullable then first ∪ follow else first

theorem WellFormed.holdsAlternatives (h : g.WellFormed) : g.HoldsAlternatives where
  names_eq := by
    rw [h.director_eq, List.map_map]
    exact List.map_id _
  answers row hrow := by
    rw [h.director_eq, List.mem_map] at hrow
    obtain ⟨n, hn, rfl⟩ := hrow
    refine ⟨h.directorSets_eq hn, ?_, ?_⟩
    · rw [Grammar.alternatives, Catalog.requireNonterminal_of_mem hn]
      simp [Except.map, Function.comp_def]
    · rw [productionsFor, Catalog.requireNonterminal_of_mem hn]
      simp [Except.map, Function.comp_def, map_rhs_alternativesOf]
  place_iff row hrow k a := by
    rw [h.director_eq, List.mem_map] at hrow
    obtain ⟨n, -, rfl⟩ := hrow
    have hfst : ((alternativesOf g.productions n).map fun a => (a, g.directorOf a)).map (·.1) =
        alternativesOf g.productions n := by
      simp [Function.comp_def]
    rw [hfst, getElem?_alternativesOf_iff, mem_alternativesOf, getElem?_filter_lhs_iff]
    constructor
    · rintro ⟨⟨hl, hr⟩, rfl⟩
      exact ⟨hl, rfl, hr⟩
    · rintro ⟨hl, rfl, hr⟩
      exact ⟨⟨hl, hr⟩, rfl⟩
  perm := h.perm_tabulated
  nodup := by
    rw [h.tabulated_eq]
    exact nodup_allAlternatives h.valid.nodup_nonterminals g.productions
  sets row hrow entry hentry := by
    rw [h.director_eq, List.mem_map] at hrow
    obtain ⟨n, -, rfl⟩ := hrow
    obtain ⟨a, ha, rfl⟩ := List.mem_map.1 hentry
    exact h.directorOf_eq ha

/-! ## 3. Conflicts -/

/-- Whether the conflicts are listed as they should be: just the pairs of places of a row whose sets
share a name, with the names they share; in the order of the catalog and then of the places; and no
pair twice. -/
structure ListsConflicts (g : Grammar) : Prop where
  mem_iff : ∀ d, d ∈ g.conflicts ↔ ∃ row s t, g.directorSets d.lhs = .ok row ∧
    row[d.first.index]? = some (d.first, s) ∧ row[d.second.index]? = some (d.second, t) ∧
      d.first.index < d.second.index ∧ (∃ x ∈ s, x ∈ t) ∧ d.overlap = s ∩ t
  ordered : g.conflicts.Pairwise (Conflict.ListedBefore g.catalog.nonterminals)
  nodup : (g.conflicts.map Conflict.place).Nodup

/-- What stands at a place of a row. -/
theorem getElem?_row_iff {s : NameSet} :
    ((alternativesOf g.productions n).map fun a => (a, g.directorOf a))[k]? = some (a, s) ↔
      (a ∈ alternativesOf g.productions n ∧ a.index = k) ∧ g.directorOf a = s := by
  rw [List.getElem?_map, Option.map_eq_some_iff]
  simp only [getElem?_alternativesOf_iff, Prod.mk.injEq]
  constructor
  · rintro ⟨b, hb, rfl, rfl⟩
    exact ⟨hb, rfl⟩
  · rintro ⟨ha, rfl⟩
    exact ⟨a, ha, rfl, rfl⟩

theorem WellFormed.listsConflicts (h : g.WellFormed) : g.ListsConflicts where
  mem_iff d := by
    rw [h.mem_conflicts_iff]
    constructor
    · rintro ⟨hn, ha, hb, hlt, hx, ho⟩
      exact ⟨_, _, _, h.directorSets_eq hn, getElem?_row_iff.2 ⟨⟨ha, rfl⟩, rfl⟩,
        getElem?_row_iff.2 ⟨⟨hb, rfl⟩, rfl⟩, hlt, hx, ho⟩
    · rintro ⟨row, s, t, hrow, hs, ht, hlt, hx, ho⟩
      have hn := mem_nonterminals_of_directorSets hrow
      obtain rfl := Except.ok.inj ((h.directorSets_eq hn).symm.trans hrow)
      obtain ⟨⟨ha, -⟩, rfl⟩ := getElem?_row_iff.1 hs
      obtain ⟨⟨hb, -⟩, rfl⟩ := getElem?_row_iff.1 ht
      exact ⟨hn, ha, hb, hlt, hx, ho⟩
  ordered := h.pairwise_conflicts
  nodup := h.nodup_places

/-- **Director sets and conflicts are complete and exact.**  In a constructed grammar, the rows hold
each production as an alternative of its own, with the director set that belongs to it, and the
conflicts are listed as they should be. -/
theorem directorTables_exact (h : g.IsConstructed) : g.HoldsAlternatives ∧ g.ListsConflicts :=
  ⟨h.wellFormed.holdsAlternatives, h.wellFormed.listsConflicts⟩

/-- A production given twice, with one of another name between, and a name without productions. -/
theorem directorTables_exact_of_repeated :
    let ps : List Production := [⟨"S", ["a"]⟩, ⟨"T", []⟩, ⟨"S", ["a"]⟩, ⟨"S", ["T"]⟩]
    ∃ g, plain ["a", "b"] ["S", "T", "U"] ps (some "S") = .ok g ∧
      g.HoldsAlternatives ∧ g.ListsConflicts := by
  intro ps
  have hg : plain ["a", "b"] ["S", "T", "U"] ps (some "S") =
      .ok (analyse (.frozen ["a", "b"] ["S", "T", "U"] (some "S")) ps) := rfl
  exact ⟨_, hg, directorTables_exact ⟨_, _, _, _, Or.inl hg⟩⟩

end Grammar

end Lookahead
