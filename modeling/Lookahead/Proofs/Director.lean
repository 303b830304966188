import Lookahead.Grammar.Query
import Lookahead.Proofs.Follow
import Lookahead.Proofs.LeftDerivation

/-!
# Conflicts and director sets

The conflicts of a grammar are listed by going through all pairs of alternatives of one
non-terminal, the first standing before the second (`mem_rowConflicts`,
`Grammar.WellFormed.mem_conflicts`).  Hence a grammar is LL(1) exactly if different alternatives of
one non-terminal have no name in common (`Grammar.WellFormed.isLL1_iff`).

The director set of an alternative is what can stand ahead of its right-hand side, with what
follows the left-hand side behind it.  In a sentential form of the start symbol, the rest of the
form stands there, so the first symbol of any word that the alternative can still lead to is in the
set (`Grammar.WellFormed.lookahead_mem_directorOf`).  In an LL(1) grammar this symbol therefore
determines the alternative (`Grammar.WellFormed.isPredictive`).
-/

namespace Lookahead

/-! ## 1. Conflicts -/

/-- Two members of a list, the first standing before the second. -/
theorem pair_sublist_cons_iff {α : Type} {a b x : α} {l : List α} :
    [a, b].Sublist (x :: l) ↔ a = x ∧ b ∈ l ∨ [a, b].Sublist l := by
  constructor
  · intro h
    cases h with
    | cons _ h => exact Or.inr h
    | cons_cons _ h => exact Or.inl ⟨rfl, List.singleton_sublist.1 h⟩
  · rintro (⟨rfl, h⟩ | h)
    · exact (List.singleton_sublist.2 h).cons_cons a
    · exact h.cons x

theorem mem_conflictsWith {lhs : Name} {a : Alternative × NameSet}
    {behind : List (Alternative × NameSet)} {d : Conflict} :
    d ∈ conflictsWith lhs a behind ↔
      ∃ b ∈ behind, (∃ x ∈ a.2, x ∈ b.2) ∧ d = ⟨lhs, a.1, b.1, a.2 ∩ b.2⟩ := by
  rw [conflictsWith, List.mem_filterMap]
  refine exists_congr fun b => and_congr_right fun _ => ?_
  have hempty : (a.2 ∩ b.2).isEmpty = true ↔ ¬ ∃ x ∈ a.2, x ∈ b.2 := by
    rw [NameSet.isEmpty_iff]
    simp
  by_cases h : (a.2 ∩ b.2).isEmpty = true
  · simp only [h, if_true, reduceCtorEq, false_iff]
    exact fun hx => hempty.1 h hx.1
  · have hx : ∃ x ∈ a.2, x ∈ b.2 := not_not.1 fun hx => h (hempty.2 hx)
    simp only [h, Bool.false_eq_true, if_false, Option.some.injEq, hx, true_and]
    exact eq_comm

/-- The conflicts of a row are its pairs that share a name. -/
theorem mem_rowConflicts {lhs : Name} {row : List (Alternative × NameSet)} {d : Conflict} :
    d ∈ rowConflicts lhs row ↔ ∃ a b, [a, b].Sublist row ∧ (∃ x ∈ a.2, x ∈ b.2) ∧
      d = ⟨lhs, a.1, b.1, a.2 ∩ b.2⟩ := by
  induction row with
  | nil => simp [rowConflicts]
  | cons r row ih =>
    rw [rowConflicts, List.mem_append, mem_conflictsWith, ih]
    constructor
    · rintro (⟨b, hb, hx, rfl⟩ | ⟨a, b, hab, hx, rfl⟩)
      · exact ⟨r, b, pair_sublist_cons_iff.2 (Or.inl ⟨rfl, hb⟩), hx, rfl⟩
      · exact ⟨a, b, pair_sublist_cons_iff.2 (Or.inr hab), hx, rfl⟩
    · rintro ⟨a, b, hab, hx, rfl⟩
      rcases pair_sublist_cons_iff.1 hab with ⟨rfl, hb⟩ | hab
      · exact Or.inl ⟨b, hb, hx, rfl⟩
      · exact Or.inr ⟨a, b, hab, hx, rfl⟩

/-- The alternatives of a non-terminal stand in the order of their numbers. -/
theorem pairwise_index_alternativesOf (ps : List Production) (n : Name) :
    (alternativesOf ps n).Pairwise fun a b => a.index < b.index := by
  rw [List.pairwise_iff_getElem]
  intro i j hi hj hij
  simpa [alternativesOf] using hij

/-- Hence of a pair of them, the two are different. -/
theorem ne_of_pair_sublist {ps : List Production} {n : Name} {a b : Alternative}
    (h : [a, b].Sublist (alternativesOf ps n)) : a ≠ b := by
  rintro rfl
  have hlt := List.pairwise_iff_forall_sublist.1 (pairwise_index_alternativesOf ps n) h
  exact absurd hlt (Nat.lt_irrefl a.index)

/-- Of two different members of a list, one stands before the other. -/
theorem pair_sublist_or {α : Type} {l : List α} {a b : α} (ha : a ∈ l) (hb : b ∈ l)
    (hab : a ≠ b) : [a, b].Sublist l ∨ [b, a].Sublist l := by
  induction l with
  | nil => exact absurd ha List.not_mem_nil
  | cons x l ih =>
    rw [pair_sublist_cons_iff, pair_sublist_cons_iff]
    rcases List.mem_cons.1 ha with rfl | ha'
    · exact Or.inl (Or.inl ⟨rfl, (List.mem_cons.1 hb).resolve_left hab.symm⟩)
    · rcases List.mem_cons.1 hb with rfl | hb'
      · exact Or.inr (Or.inl ⟨rfl, ha'⟩)
      · exact (ih ha' hb').imp Or.inr Or.inr

namespace Grammar

variable {g : Grammar}

/-! ## 2. The rows of a grammar -/

/-- The names on which the grammar takes an alternative. -/
def directorOf (g : Grammar) (a : Alternative) : NameSet :=
  directorSet g.first g.follow g.nullable a

/-- The director sets are stored by non-terminal, in the order of the catalog. -/
theorem WellFormed.director_eq (h : g.WellFormed) :
    g.director = g.catalog.nonterminals.map fun n =>
      (n, (alternativesOf g.productions n).map fun a => (a, g.directorOf a)) := by
  conv_lhs => rw [h.tables]
  conv_rhs => rw [h.tables]
  rfl

/-- The row of a declared non-terminal can be found. -/
theorem WellFormed.find?_director (h : g.WellFormed) {n : Name}
    (hn : n ∈ g.catalog.nonterminals) : g.director.find? (·.1 = n) =
      some (n, (alternativesOf g.productions n).map fun a => (a, g.directorOf a)) := by
  rw [h.director_eq]
  generalize g.catalog.nonterminals = ns at hn
  induction ns with
  | nil => exact absurd hn List.not_mem_nil
  | cons m ns ih =>
    by_cases hm : m = n
    · simp [hm]
    · rw [List.map_cons, List.find?_cons_of_neg (by simpa using hm)]
      exact ih ((List.mem_cons.1 hn).resolve_left (Ne.symm hm))

/-- What is stored for the alternatives of a declared non-terminal. -/
theorem WellFormed.directorSets_eq (h : g.WellFormed) {n : Name}
    (hn : n ∈ g.catalog.nonterminals) :
    g.directorSets n =
      .ok ((alternativesOf g.productions n).map fun a => (a, g.directorOf a)) := by
  rw [directorSets, Catalog.requireNonterminal_of_mem hn]
  simp only [Except.map, h.find?_director hn]

/-- A row can be looked up for declared non-terminals only. -/
theorem mem_nonterminals_of_directorSets {n : Name} {row : List (Alternative × NameSet)}
    (h : g.directorSets n = .ok row) : n ∈ g.catalog.nonterminals := by
  by_contra hn
  rw [directorSets, Catalog.requireNonterminal_of_notMem hn] at h
  cases h

/-- A stored set can be looked up. -/
theorem WellFormed.exists_directorSets (h : g.WellFormed) {a : Alternative}
    (ha : a ∈ alternativesOf g.productions a.lhs) :
    ∃ row, g.directorSets a.lhs = .ok row ∧ (a, g.directorOf a) ∈ row := by
  refine ⟨_, h.directorSets_eq (h.checked.mem_nonterminals_of_alternative ha), ?_⟩
  exact List.mem_map.2 ⟨a, ha, rfl⟩

/-- The conflicts are those of the rows, in the order of the catalog. -/
theorem WellFormed.conflicts_eq (h : g.WellFormed) :
    g.conflicts = g.catalog.nonterminals.flatMap fun n =>
      rowConflicts n ((alternativesOf g.productions n).map fun a => (a, g.directorOf a)) := by
  conv_lhs => rw [h.tables]
  show (List.map _ _).flatMap _ = _
  rw [List.flatMap_map, h.tables]
  rfl

/-- The conflicts of a grammar are the pairs of alternatives of a declared non-terminal whose
director sets share a name. -/
theorem WellFormed.mem_conflicts (h : g.WellFormed) {d : Conflict} :
    d ∈ g.conflicts ↔ ∃ n ∈ g.catalog.nonterminals, ∃ a b,
      [a, b].Sublist (alternativesOf g.productions n) ∧
        (∃ x ∈ g.directorOf a, x ∈ g.directorOf b) ∧
        d = ⟨n, a, b, g.directorOf a ∩ g.directorOf b⟩ := by
  rw [h.conflicts_eq, List.mem_flatMap]
  refine exists_congr fun n => and_congr_right fun _ => ?_
  rw [mem_rowConflicts]
  constructor
  · rintro ⟨_, _, hab, hx, rfl⟩
    obtain ⟨l, hl, he⟩ := List.sublist_map_iff.1 hab
    obtain ⟨a, rest, rfl, rfl, hrest⟩ := List.map_eq_cons_iff.1 he.symm
    obtain ⟨b, tail, rfl, rfl, htail⟩ := List.map_eq_cons_iff.1 hrest
    obtain rfl := List.map_eq_nil_iff.1 htail
    exact ⟨a, b, hl, hx, rfl⟩
  · rintro ⟨a, b, hab, hx, rfl⟩
    exact ⟨(a, g.directorOf a), (b, g.directorOf b),
      hab.map fun a => (a, g.directorOf a), hx, rfl⟩

/-- A grammar is LL(1) exactly if different alternatives of one non-terminal share no name. -/
theorem WellFormed.isLL1_iff (h : g.WellFormed) :
    g.isLL1 = true ↔ ∀ n, ∀ a ∈ alternativesOf g.productions n,
      ∀ b ∈ alternativesOf g.productions n, ∀ x ∈ g.directorOf a, x ∈ g.directorOf b → a = b := by
  rw [isLL1, List.isEmpty_iff]
  constructor
  · intro hnil n a ha b hb x hxa hxb
    by_contra hab
    have hn := h.checked.mem_nonterminals_of_alternative ha
    rcases pair_sublist_or ha hb hab with hs | hs
    · exact List.ne_nil_of_mem (h.mem_conflicts.2 ⟨n, hn, a, b, hs, ⟨x, hxa, hxb⟩, rfl⟩) hnil
    · exact List.ne_nil_of_mem (h.mem_conflicts.2 ⟨n, hn, b, a, hs, ⟨x, hxb, hxa⟩, rfl⟩) hnil
  · intro hdisjoint
    refine List.eq_nil_iff_forall_not_mem.2 fun d hd => ?_
    obtain ⟨n, _, a, b, hab, ⟨x, hxa, hxb⟩, -⟩ := h.mem_conflicts.1 hd
    exact ne_of_pair_sublist hab
      (hdisjoint n a (hab.subset (by simp)) b (hab.subset (by simp)) x hxa hxb)

/-! ## 3. Director sets and derivations -/

/-- The tables of a grammar are closed and sound. -/
theorem WellFormed.firstClosed (h : g.WellFormed) :
    FirstClosed g.catalog g.productions g.nullable g.first := by
  rw [h.tables]
  exact firstClosed_firstTable h.checked

theorem WellFormed.firstSound (h : g.WellFormed) :
    FirstSound g.productions g.nullable g.first := by
  rw [h.tables]
  exact firstSound_firstTable _ _

theorem WellFormed.firstBounded (h : g.WellFormed) : FirstBounded g.catalog g.first := by
  rw [h.tables]
  exact firstBounded_firstTable h.checked _

theorem WellFormed.followClosed (h : g.WellFormed) :
    FollowClosed g.catalog g.productions g.nullable g.first g.follow := by
  rw [h.tables]
  exact followClosed_followTable h.checked

theorem WellFormed.followSound (h : g.WellFormed) :
    FollowSound g.catalog g.productions g.follow := by
  rw [h.tables]
  exact followSound_followTable h.checked

/-- Whenever an alternative is applied in a sentential form of the start symbol and leads to a word,
the symbol ahead is in its director set. -/
theorem WellFormed.lookahead_mem_directorOf (h : g.WellFormed) {s : Name}
    (hs : g.catalog.start = some s) {a : Alternative} {before after x : List Name}
    (hd : Derives g.productions [s] (before ++ a.lhs :: after))
    (ha : a ∈ alternativesOf g.productions a.lhs)
    (hx : Derives g.productions (a.rhs ++ after) x) (hw : g.catalog.IsWord x) :
    lookahead x ∈ g.directorOf a := by
  have hlhs := h.checked.mem_nonterminals_of_alternative ha
  have hfollow : ahead g.first g.nullable (.singleton endMarker) after ≤ g.follow.get a.lhs :=
    h.followClosed.covers_of_start h.firstClosed h.checked hs hd before a.lhs after rfl hlhs
  have hmem := h.firstClosed.lookahead_mem_ahead hx hw
  rw [ahead_append] at hmem
  exact ahead_mono hfollow a.rhs _ hmem

/-- An LL(1) grammar is predictive. -/
theorem WellFormed.isPredictive (h : g.WellFormed) (hll : g.isLL1 = true) : g.IsPredictive := by
  intro s before after cs n a b x y hs hd _ ha hb hxa hx hyb hy hxy
  obtain ⟨rfl, -⟩ := mem_alternativesOf.1 ha
  have hla := h.lookahead_mem_directorOf hs hd.derives ha hxa hx
  obtain ⟨hl, -⟩ := mem_alternativesOf.1 hb
  have hlb : lookahead y ∈ g.directorOf b := by
    rw [← hl] at hd hb
    exact h.lookahead_mem_directorOf hs hd.derives hb hyb hy
  rw [← hxy] at hlb
  exact h.isLL1_iff.1 hll a.lhs a ha b hb (lookahead x) hla hlb

end Grammar

end Lookahead
