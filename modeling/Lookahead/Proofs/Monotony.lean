import Lookahead.Proofs.Reordering
import Mathlib.Data.List.NodupEquivFin

/-!
# More productions

Productions can be put in between others.  What was found out about a grammar remains true then, and
more may become true: every set is at least as large as it was, and every conflict is still there.
So a grammar that is LL(1) stays so when productions are taken out.

## 1. Places

Productions put in front of others change the numbers of the alternatives, so what becomes of an
alternative has to be said by places.  A `Selection` says for every place of the shorter list where
its production stands in the longer one, in the same order.  A subsequence has one, and more than
one if it can be found in the longer list in several ways.  Since the order is kept, alternatives do
not change sides in a conflict (`index_alternativeAt_lt_iff`).

## 2. Tables

The tables are known by the derivations, and a derivation is one with more productions as well
(`Grammar.WellFormed.tablesLe`).  This is why the three repetitions need not be compared pass by
pass.

## 3. Director sets

A right-hand side that was not nullable can become nullable, and its director set then takes up what
follows the left-hand side.  But what stands ahead of a sequence only grows with everything that it
depends on (`ahead_le_ahead`), so the two cases need not be told apart.
-/

namespace Lookahead

variable {ps ps' : List Production}

/-! ## 1. Places -/

/-- Of two productions of one name, the one in front has the lower number. -/
theorem index_alternativeAt_lt_iff {i j : Fin ps.length} (h : (ps.get i).lhs = (ps.get j).lhs) :
    (alternativeAt ps i).index < (alternativeAt ps j).index ↔ i < j := by
  have hlt : ∀ {i j : Fin ps.length}, (ps.get i).lhs = (ps.get j).lhs → i < j →
      (alternativeAt ps i).index < (alternativeAt ps j).index := by
    intro i j h hij
    simp only [alternativeAt, h]
    exact length_rhssOf_take_lt hij i.isLt h
  constructor
  · intro hidx
    by_contra hij
    rcases Nat.lt_or_eq_of_le (Nat.le_of_not_lt hij) with hji | hji
    · exact Nat.lt_asymm hidx (hlt h.symm hji)
    · exact Nat.lt_irrefl _ (Fin.ext hji ▸ hidx)
  · exact hlt h

/-- For every place of one list a place of the same production in the other, in the same order. -/
structure Selection (ps ps' : List Production) where
  places : Fin ps.length ↪o Fin ps'.length
  get_places : ∀ i, ps'.get (places i) = ps.get i

namespace Selection

/-- Every subsequence is a selection. -/
theorem nonempty_of_sublist (h : ps.Sublist ps') : Nonempty (Selection ps ps') := by
  obtain ⟨places, hplaces⟩ := List.sublist_iff_exists_fin_orderEmbedding_get_eq.1 h
  exact ⟨places, fun i => (hplaces i).symm⟩

/-- What an alternative becomes: the alternative of the production at the corresponding place. -/
inductive Matches (σ : Selection ps ps') : Alternative → Alternative → Prop
  | mk (i : Fin ps.length) : Matches σ (alternativeAt ps i) (alternativeAt ps' (σ.places i))

variable {σ : Selection ps ps'} {a a' b b' : Alternative} {n : Name}

theorem Matches.lhs_eq (h : σ.Matches a a') : a'.lhs = a.lhs := by
  obtain ⟨i⟩ := h
  simp only [alternativeAt, σ.get_places]

theorem Matches.rhs_eq (h : σ.Matches a a') : a'.rhs = a.rhs := by
  obtain ⟨i⟩ := h
  simp only [alternativeAt, σ.get_places]

/-- Every alternative becomes an alternative of the same name. -/
theorem exists_matches (σ : Selection ps ps') (ha : a ∈ alternativesOf ps n) :
    ∃ a' ∈ alternativesOf ps' n, σ.Matches a a' := by
  obtain ⟨i, rfl, rfl⟩ := mem_alternativesOf_iff_exists_place.1 ha
  refine ⟨_, mem_alternativesOf_iff_exists_place.2 ⟨σ.places i, ?_, rfl⟩, .mk i⟩
  rw [σ.get_places]

/-- Alternatives of one name keep their order. -/
theorem Matches.index_lt (ha : σ.Matches a a') (hb : σ.Matches b b') (hlhs : a.lhs = b.lhs)
    (h : a.index < b.index) : a'.index < b'.index := by
  obtain ⟨i⟩ := ha
  obtain ⟨j⟩ := hb
  have hij : i < j := (index_alternativeAt_lt_iff hlhs).1 h
  refine (index_alternativeAt_lt_iff ?_).2 (σ.places.lt_iff_lt.2 hij)
  rw [σ.get_places, σ.get_places]
  exact hlhs

end Selection

/-! ## 2. Tables -/

/-- What follows still follows when there are more productions. -/
theorem Follows.mono {c : Catalog} {b x : Name} (h : ps ⊆ ps') (hf : Follows c ps b x) :
    Follows c ps' b x := by
  cases hf with
  | terminal ht ha hd => exact .terminal ht ha (hd.mono h)
  | endMarker hs hd => exact .endMarker hs (hd.mono h)

namespace Grammar

variable {g g' : Grammar} {a b : Alternative}

/-- What is found out about one grammar is found out about the other as well. -/
structure TablesLe (g g' : Grammar) : Prop where
  nullable : g.nullable ≤ g'.nullable
  first : g.first ≤ g'.first
  follow : g.follow ≤ g'.follow

/-- With more productions over the same names, the tables become larger. -/
theorem WellFormed.tablesLe (h : g.WellFormed) (h' : g'.WellFormed)
    (hc : g'.catalog = g.catalog) (hps : g.productions ⊆ g'.productions) : g.TablesLe g' where
  nullable n hn := by
    rw [h.mem_nullable_iff] at hn
    exact h'.mem_nullable_iff.2 (hn.mono hps)
  first n t ht := by
    obtain ⟨hterm, v, hd⟩ := h.mem_first_iff.1 ht
    exact h'.mem_first_iff.2 ⟨hc ▸ hterm, v, hd.mono hps⟩
  follow n x hx := by
    obtain ⟨hn, hf⟩ := h.mem_follow_iff.1 hx
    exact h'.mem_follow_iff.2 ⟨hc ▸ hn, hc ▸ hf.mono hps⟩

end Grammar

/-! ## 3. Director sets -/

/-- What stands ahead of a sequence grows with all that it depends on. -/
theorem ahead_le_ahead {first first' : Table} {nullable nullable' behind behind' : NameSet}
    (hf : first ≤ first') (hn : nullable ≤ nullable') (hb : behind ≤ behind') (u : List Name) :
    ahead first nullable behind u ≤ ahead first' nullable' behind' u := by
  induction u with
  | nil =>
    rw [ahead_nil, ahead_nil]
    exact hb
  | cons n u ih =>
    by_cases hm : n ∈ nullable
    · rw [ahead_cons_nullable hm, ahead_cons_nullable (hn n hm)]
      exact NameSet.union_le_union (hf n) ih
    · rw [ahead_cons hm]
      by_cases hm' : n ∈ nullable'
      · rw [ahead_cons_nullable hm']
        exact (hf n).trans (NameSet.le_union_left _ _)
      · rw [ahead_cons hm']
        exact hf n

namespace Grammar

variable {g g' : Grammar} {a b : Alternative}

theorem TablesLe.directorOf_le (h : g.TablesLe g') (hlhs : b.lhs = a.lhs) (hrhs : b.rhs = a.rhs) :
    g.directorOf a ≤ g'.directorOf b := by
  rw [directorOf, directorOf, directorSet_eq_ahead, directorSet_eq_ahead, hlhs, hrhs]
  exact ahead_le_ahead h.first h.nullable (h.follow a.lhs) a.rhs

/-- The director set that is stored for an alternative becomes larger. -/
theorem TablesLe.directorSets_le (hle : g.TablesLe g') (h : g.WellFormed) (h' : g'.WellFormed)
    (hc : g'.catalog = g.catalog) (σ : Selection g.productions g'.productions) {n : Name}
    {row : List (Alternative × NameSet)} (hrow : g.directorSets n = .ok row) :
    ∃ row', g'.directorSets n = .ok row' ∧
      ∀ e ∈ row, ∃ e' ∈ row', σ.Matches e.1 e'.1 ∧ e.2 ≤ e'.2 := by
  have hn := mem_nonterminals_of_directorSets hrow
  rw [h.directorSets_eq hn, Except.ok.injEq] at hrow
  refine ⟨_, h'.directorSets_eq (hc ▸ hn), fun e he => ?_⟩
  rw [← hrow] at he
  obtain ⟨a, ha, rfl⟩ := List.mem_map.1 he
  obtain ⟨a', ha', hm⟩ := σ.exists_matches ha
  exact ⟨_, List.mem_map.2 ⟨a', ha', rfl⟩, hm, hle.directorOf_le hm.lhs_eq hm.rhs_eq⟩

/-- A conflict is still there, between the alternatives that its alternatives become. -/
theorem TablesLe.exists_conflict (hle : g.TablesLe g') (h : g.WellFormed) (h' : g'.WellFormed)
    (hc : g'.catalog = g.catalog) (σ : Selection g.productions g'.productions) {d : Conflict}
    (hd : d ∈ g.conflicts) :
    ∃ d' ∈ g'.conflicts, d'.lhs = d.lhs ∧ σ.Matches d.first d'.first ∧
      σ.Matches d.second d'.second ∧ d.overlap ≤ d'.overlap := by
  obtain ⟨hn, ha, hb, hlt, ⟨x, hxa, hxb⟩, ho⟩ := h.mem_conflicts_iff.1 hd
  obtain ⟨a', ha', hma⟩ := σ.exists_matches ha
  obtain ⟨b', hb', hmb⟩ := σ.exists_matches hb
  have hda := hle.directorOf_le hma.lhs_eq hma.rhs_eq
  have hdb := hle.directorOf_le hmb.lhs_eq hmb.rhs_eq
  have hlhs : d.first.lhs = d.second.lhs := by
    rw [(mem_alternativesOf.1 ha).1, (mem_alternativesOf.1 hb).1]
  refine ⟨⟨d.lhs, a', b', g'.directorOf a' ∩ g'.directorOf b'⟩, h'.mem_conflicts_iff.2
    ⟨hc ▸ hn, ha', hb', hma.index_lt hmb hlhs hlt, ⟨x, hda x hxa, hdb x hxb⟩, rfl⟩,
    rfl, hma, hmb, fun y hy => ?_⟩
  rw [ho, NameSet.mem_inter] at hy
  exact NameSet.mem_inter.2 ⟨hda y hy.1, hdb y hy.2⟩

/-! ## 4. Monotony -/

/-- **Monotony.**  If a grammar comes of some productions, one comes of every subsequence of them,
with the same names.  Whatever is found out about the smaller one is found out about the larger one.
However the productions are found in the larger one, the director set of each alternative is
contained in that of the alternative it becomes, and each conflict is a conflict of the alternatives
that its alternatives become, on at least the same names.  So the smaller grammar is LL(1) if the
larger one is. -/
theorem exists_plain_of_sublist {ts ns : List Name} {start : Option Name}
    (h' : plain ts ns ps' start = .ok g') (hps : ps.Sublist ps') :
    ∃ g, plain ts ns ps start = .ok g ∧ g.TablesLe g' ∧ Nonempty (Selection ps ps') ∧
      (∀ σ : Selection ps ps',
        (∀ n row, g.directorSets n = .ok row → ∃ row', g'.directorSets n = .ok row' ∧
          ∀ e ∈ row, ∃ e' ∈ row', σ.Matches e.1 e'.1 ∧ e.2 ≤ e'.2) ∧
        ∀ d ∈ g.conflicts, ∃ d' ∈ g'.conflicts, d'.lhs = d.lhs ∧ σ.Matches d.first d'.first ∧
          σ.Matches d.second d'.second ∧ d.overlap ≤ d'.overlap) ∧
      (g'.isLL1 = true → g.isLL1 = true) := by
  obtain ⟨g, h⟩ : ∃ g, plain ts ns ps start = .ok g := by
    obtain ⟨hnames, hdeclared⟩ := exists_plain_iff.1 ⟨g', h'⟩
    exact exists_plain_iff.2 ⟨hnames, fun p hp => hdeclared p (hps.subset hp)⟩
  have hg := wellFormed_of_plain h
  have hg' := wellFormed_of_plain h'
  obtain rfl := eq_analyse_of_plain h
  obtain rfl := eq_analyse_of_plain h'
  have hle := hg.tablesLe hg' rfl hps.subset
  refine ⟨_, h, hle, Selection.nonempty_of_sublist hps, fun σ => ⟨fun n row hrow => ?_, ?_⟩, ?_⟩
  · exact hle.directorSets_le hg hg' rfl σ hrow
  · exact fun d hd => hle.exists_conflict hg hg' rfl σ hd
  · obtain ⟨σ⟩ := Selection.nonempty_of_sublist hps
    simp only [isLL1, List.isEmpty_iff]
    intro hnil
    refine List.eq_nil_iff_forall_not_mem.2 fun d hd => ?_
    obtain ⟨d', hd', -⟩ := hle.exists_conflict hg hg' rfl σ hd
    exact List.ne_nil_of_mem hd' hnil

/-- The alternatives `a S` and `A b` are numbered 0 and 1 in the smaller grammar and 1 and 2 in the
larger one, where `A` is nullable.  They are in conflict in both. -/
theorem exists_plain_of_removed :
    let ps : List Production := [⟨"S", ["a", "S"]⟩, ⟨"S", ["A", "b"]⟩, ⟨"A", ["a"]⟩]
    let ps' : List Production :=
      [⟨"S", ["b"]⟩, ⟨"S", ["a", "S"]⟩, ⟨"A", []⟩, ⟨"S", ["A", "b"]⟩, ⟨"A", ["a"]⟩]
    ps.Sublist ps' ∧ ∃ g', plain ["a", "b"] ["S", "A"] ps' (some "S") = .ok g' ∧
      ∃ g, plain ["a", "b"] ["S", "A"] ps (some "S") = .ok g ∧ g.TablesLe g' ∧
        (∀ σ : Selection ps ps', ∀ d ∈ g.conflicts, ∃ d' ∈ g'.conflicts, d'.lhs = d.lhs ∧
          σ.Matches d.first d'.first ∧ σ.Matches d.second d'.second ∧ d.overlap ≤ d'.overlap) ∧
        (g'.isLL1 = true → g.isLL1 = true) := by
  intro ps ps'
  have hps : ps.Sublist ps' := by decide
  have hg' : plain ["a", "b"] ["S", "A"] ps' (some "S") =
      .ok (analyse (.frozen ["a", "b"] ["S", "A"] (some "S")) ps') := rfl
  obtain ⟨g, hg, hle, -, hσ, hll⟩ := exists_plain_of_sublist hg' hps
  exact ⟨hps, _, hg', g, hg, hle, fun σ => (hσ σ).2, hll⟩

end Grammar

end Lookahead
