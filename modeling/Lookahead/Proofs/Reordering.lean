import Lookahead.Proofs.Construction
import Lookahead.Proofs.Director
import Lookahead.Proofs.Front
import Lookahead.Proofs.Query
import Mathlib.Data.List.FinRange
import Mathlib.Logic.Equiv.Fin.Basic

/-!
# The order of declarations

In which order names are declared and productions are given makes no difference to what is found
out about them.  It does make a difference to how the alternatives of a non-terminal are numbered,
and so to how conflicts are reported.

## 1. Numbers and places

The number of an alternative counts the productions of the same name in front of it, so an
alternative is a place in the list of productions (`mem_alternativesOf_iff_exists_place`), and
different places are different alternatives (`alternativeAt_injective`), equal productions not
excepted.

## 2. Reorderings

A `Reordering` says for every place of one list where its production stands in the other.  There
is one exactly if the lists are permutations of each other, and more than one if a production
occurs twice.  Each renumbers the alternatives, and with them the conflicts; of two alternatives
in conflict the one with the lower number comes first, so the two may have to change sides.

## 3. Conflicts

Conflicts are listed in the order of the catalog and then of the numbers
(`Grammar.WellFormed.pairwise_conflicts`), strictly, and so none is listed twice.

## 4. Tables

The repetitions that compute the tables pass through different states when the order is different,
and need not even end after the same number of passes.  But their results are exact, so they are
known by the derivations, and a derivation does not see the order of the productions
(`Grammar.WellFormed.sameTables`).
-/

namespace Lookahead

variable {ps ps' : List Production} {n : Name} {a b : Alternative}

/-! ## 1. Numbers and places -/

theorem rhssOf_cons (p : Production) (ps : List Production) (n : Name) :
    rhssOf (p :: ps) n = if p.lhs = n then p.rhs :: rhssOf ps n else rhssOf ps n := by
  by_cases h : p.lhs = n <;> simp [rhssOf, h]

/-- The alternative that the production at a place is. -/
def alternativeAt (ps : List Production) (i : Fin ps.length) : Alternative :=
  ⟨(ps.get i).lhs, (rhssOf (ps.take i) (ps.get i).lhs).length, (ps.get i).rhs⟩

theorem getElem?_rhssOf_iff {k : Nat} {rhs : List Name} :
    (rhssOf ps n)[k]? = some rhs ↔
      ∃ i : Nat, ps[i]? = some ⟨n, rhs⟩ ∧ (rhssOf (ps.take i) n).length = k := by
  induction ps generalizing k with
  | nil => simp
  | cons p ps ih =>
    rw [← Nat.or_exists_add_one]
    simp only [List.getElem?_cons_zero, List.getElem?_cons_succ, List.take_zero,
      List.take_succ_cons, rhssOf_cons, rhssOf_nil, List.length_nil, Option.some.injEq]
    by_cases hp : p.lhs = n
    · cases k with
      | zero =>
        subst hp
        cases p
        simp
      | succ k => simp [hp, ih]
    · have hne : ¬ p = ⟨n, rhs⟩ := fun h => hp (by rw [h])
      simp [hp, hne, ih]

/-- The alternatives of a name are the places of its productions. -/
theorem mem_alternativesOf_iff_exists_place :
    a ∈ alternativesOf ps n ↔ ∃ i, (ps.get i).lhs = n ∧ alternativeAt ps i = a := by
  rw [mem_alternativesOf, getElem?_rhssOf_iff]
  constructor
  · rintro ⟨rfl, i, hi, hk⟩
    obtain ⟨hlt, hget⟩ := List.getElem?_eq_some_iff.1 hi
    refine ⟨⟨i, hlt⟩, ?_⟩
    simp [alternativeAt, hget, hk]
  · rintro ⟨i, rfl, rfl⟩
    exact ⟨rfl, i, by simp [alternativeAt], rfl⟩

/-- A production counts for every later one of the same name. -/
theorem length_rhssOf_take_lt {i j : Nat} (hij : i < j) (hi : i < ps.length)
    (hn : ps[i].lhs = n) :
    (rhssOf (ps.take i) n).length < (rhssOf (ps.take j) n).length := by
  have hsucc : (rhssOf (ps.take (i + 1)) n).length = (rhssOf (ps.take i) n).length + 1 := by
    rw [List.take_succ_eq_append_getElem hi, rhssOf_append, rhssOf_cons, if_pos hn]
    simp
  obtain ⟨rest, hrest⟩ := List.take_prefix_take_left (l := ps) (Nat.succ_le_of_lt hij)
  have hle : (rhssOf (ps.take (i + 1)) n).length ≤ (rhssOf (ps.take j) n).length := by
    rw [← hrest, rhssOf_append, List.length_append]
    exact Nat.le_add_right _ _
  omega

theorem alternativeAt_injective (ps : List Production) :
    Function.Injective (alternativeAt ps) := by
  intro i j h
  have hlhs : (ps.get i).lhs = (ps.get j).lhs := congrArg Alternative.lhs h
  have hindex : (alternativeAt ps i).index = (alternativeAt ps j).index :=
    congrArg Alternative.index h
  simp only [alternativeAt] at hindex
  rcases Nat.lt_trichotomy i j with hij | hij | hij
  · have hlt := length_rhssOf_take_lt (n := (ps.get i).lhs) hij i.isLt rfl
    rw [← hlhs] at hindex
    omega
  · exact Fin.ext hij
  · have hlt := length_rhssOf_take_lt (n := (ps.get j).lhs) hij j.isLt rfl
    rw [hlhs] at hindex
    omega

/-! ## 2. Reorderings -/

/-- For every place of one list the place of the same production in the other. -/
structure Reordering (ps ps' : List Production) where
  places : Fin ps.length ≃ Fin ps'.length
  get_places : ∀ i, ps'.get (places i) = ps.get i

namespace Reordering

/-- The way back. -/
def symm (σ : Reordering ps ps') : Reordering ps' ps where
  places := σ.places.symm
  get_places i := by rw [← σ.get_places, Equiv.apply_symm_apply]

/-- One reordering after the other. -/
def trans {ps'' : List Production} (σ : Reordering ps ps') (τ : Reordering ps' ps'') :
    Reordering ps ps'' where
  places := σ.places.trans τ.places
  get_places i := by rw [Equiv.trans_apply, τ.get_places, σ.get_places]

/-- The first production stays where it is. -/
def cons (p : Production) (σ : Reordering ps ps') : Reordering (p :: ps) (p :: ps') where
  places := (finSuccEquiv ps.length).trans
    ((Equiv.optionCongr σ.places).trans (finSuccEquiv ps'.length).symm)
  get_places i := by
    cases i using Fin.cases with
    | zero => simp
    | succ i => simpa using σ.get_places i

/-- The first two productions change places. -/
def swap (p q : Production) (ps : List Production) :
    Reordering (p :: q :: ps) (q :: p :: ps) where
  places := Equiv.swap (0 : Fin (ps.length + 2)) 1
  get_places i := by
    cases i using Fin.cases with
    | zero => simp
    | succ i =>
      cases i using Fin.cases with
      | zero => simp
      | succ i =>
        have h₀ : i.succ.succ ≠ 0 := Fin.succ_ne_zero _
        have h₁ : i.succ.succ ≠ 1 := fun h => Fin.succ_ne_zero i (Fin.succ_inj.1 h)
        rw [Equiv.swap_apply_of_ne_of_ne h₀ h₁]
        rfl

/-- Every permutation is a reordering. -/
theorem nonempty_of_perm (h : ps.Perm ps') : Nonempty (Reordering ps ps') := by
  induction h with
  | nil => exact ⟨⟨Equiv.refl _, fun _ => rfl⟩⟩
  | cons p _ ih => exact ih.map (cons p)
  | swap p q ps => exact ⟨swap q p ps⟩
  | trans _ _ ih ih' => exact ih.elim fun σ => ih'.map σ.trans

/-- The alternative that an alternative becomes, its production being moved. -/
def alternative (σ : Reordering ps ps') (a : Alternative) : Alternative :=
  match (List.finRange ps.length).find? (alternativeAt ps · = a) with
  | some i => alternativeAt ps' (σ.places i)
  | none => a

/-- The conflict that a conflict becomes: the alternatives are renumbered, and the one that has the
lower number then comes first. -/
def conflict (σ : Reordering ps ps') (d : Conflict) : Conflict :=
  let a := σ.alternative d.first
  let b := σ.alternative d.second
  if a.index < b.index then ⟨d.lhs, a, b, d.overlap⟩ else ⟨d.lhs, b, a, d.overlap⟩

@[simp] theorem alternative_alternativeAt (σ : Reordering ps ps') (i : Fin ps.length) :
    σ.alternative (alternativeAt ps i) = alternativeAt ps' (σ.places i) := by
  unfold alternative
  split
  · rename_i j hj
    have hij : alternativeAt ps j = alternativeAt ps i := by simpa using List.find?_some hj
    rw [alternativeAt_injective ps hij]
  · rename_i hnone
    simpa using List.find?_eq_none.1 hnone i (List.mem_finRange i)

theorem alternative_mem (σ : Reordering ps ps') (ha : a ∈ alternativesOf ps n) :
    σ.alternative a ∈ alternativesOf ps' n := by
  obtain ⟨i, rfl, rfl⟩ := mem_alternativesOf_iff_exists_place.1 ha
  rw [alternative_alternativeAt, mem_alternativesOf_iff_exists_place]
  exact ⟨σ.places i, by rw [σ.get_places], rfl⟩

theorem rhs_alternative (σ : Reordering ps ps') (ha : a ∈ alternativesOf ps n) :
    (σ.alternative a).rhs = a.rhs := by
  obtain ⟨i, -, rfl⟩ := mem_alternativesOf_iff_exists_place.1 ha
  rw [alternative_alternativeAt]
  simp only [alternativeAt, σ.get_places]

theorem alternative_symm (σ : Reordering ps ps') (ha : a ∈ alternativesOf ps n) :
    σ.symm.alternative (σ.alternative a) = a := by
  obtain ⟨i, -, rfl⟩ := mem_alternativesOf_iff_exists_place.1 ha
  rw [alternative_alternativeAt, alternative_alternativeAt]
  simp [symm]

theorem conflict_symm (σ : Reordering ps ps') {d : Conflict}
    (ha : d.first ∈ alternativesOf ps n) (hb : d.second ∈ alternativesOf ps n)
    (hlt : d.first.index < d.second.index) : σ.symm.conflict (σ.conflict d) = d := by
  have hnlt : ¬ d.second.index < d.first.index := Nat.lt_asymm hlt
  unfold conflict
  by_cases h : (σ.alternative d.first).index < (σ.alternative d.second).index
  · simp [h, hlt, σ.alternative_symm ha, σ.alternative_symm hb]
  · simp [h, hnlt, σ.alternative_symm ha, σ.alternative_symm hb]

end Reordering

/-! ## 3. Conflicts -/

/-- Alternatives of one name with the same number are the same. -/
theorem eq_of_index_eq (ha : a ∈ alternativesOf ps n) (hb : b ∈ alternativesOf ps n)
    (h : a.index = b.index) : a = b := by
  obtain ⟨hal, har⟩ := mem_alternativesOf.1 ha
  obtain ⟨hbl, hbr⟩ := mem_alternativesOf.1 hb
  rw [h, hbr, Option.some.injEq] at har
  obtain ⟨_, _, _⟩ := a
  obtain ⟨_, _, _⟩ := b
  simp_all

/-- In the list of alternatives, those with lower numbers stand in front. -/
theorem pair_sublist_alternativesOf_iff : [a, b].Sublist (alternativesOf ps n) ↔
    a ∈ alternativesOf ps n ∧ b ∈ alternativesOf ps n ∧ a.index < b.index := by
  have hpairs : ∀ {a b : Alternative}, [a, b].Sublist (alternativesOf ps n) → a.index < b.index :=
    fun h => List.pairwise_iff_forall_sublist.1 (pairwise_index_alternativesOf ps n) h
  constructor
  · exact fun h => ⟨h.subset (by simp), h.subset (by simp), hpairs h⟩
  · rintro ⟨ha, hb, hlt⟩
    have hne : a ≠ b := by
      rintro rfl
      exact Nat.lt_irrefl _ hlt
    exact (pair_sublist_or ha hb hne).resolve_right fun h => Nat.lt_asymm hlt (hpairs h)

/-- Whether one conflict is listed before the other, both being of one non-terminal. -/
def Conflict.Before (d e : Conflict) : Prop :=
  d.first.index < e.first.index ∨
    d.first.index = e.first.index ∧ d.second.index < e.second.index

/-- Of two conflicts, the first belongs to an earlier non-terminal, or to the same one and has the
lower numbers. -/
def Conflict.ListedBefore (ns : List Name) (d e : Conflict) : Prop :=
  ns.idxOf d.lhs < ns.idxOf e.lhs ∨ d.lhs = e.lhs ∧ d.Before e

/-- The non-terminal of a conflict and the numbers of its alternatives. -/
def Conflict.place (d : Conflict) : Name × Nat × Nat := (d.lhs, d.first.index, d.second.index)

theorem Conflict.ListedBefore.place_ne {ns : List Name} {d e : Conflict}
    (h : d.ListedBefore ns e) : d.place ≠ e.place := by
  intro he
  obtain ⟨hl, hi, hj⟩ : d.lhs = e.lhs ∧ d.first.index = e.first.index ∧
      d.second.index = e.second.index := by simpa [place] using he
  rcases h with hlt | ⟨-, hlt | ⟨-, hlt⟩⟩
  · exact Nat.lt_irrefl _ (hl ▸ hlt)
  · exact Nat.lt_irrefl _ (hi ▸ hlt)
  · exact Nat.lt_irrefl _ (hj ▸ hlt)

/-- The conflicts of a row are listed in the order of their numbers. -/
theorem pairwise_rowConflicts {lhs : Name} {row : List (Alternative × NameSet)}
    (h : row.Pairwise fun a b => a.1.index < b.1.index) :
    (rowConflicts lhs row).Pairwise Conflict.Before := by
  induction row with
  | nil => exact .nil
  | cons a row ih =>
    obtain ⟨ha, hrow⟩ := List.pairwise_cons.1 h
    rw [rowConflicts, List.pairwise_append]
    refine ⟨?_, ih hrow, fun d hd e he => Or.inl ?_⟩
    · -- the conflicts of one alternative, in the order of the second
      rw [conflictsWith, List.pairwise_filterMap]
      refine hrow.imp fun {b b'} hlt d hd d' hd' => Or.inr ?_
      simp only [Option.ite_none_left_eq_some, Option.some.injEq] at hd hd'
      obtain ⟨-, rfl⟩ := hd
      obtain ⟨-, rfl⟩ := hd'
      exact ⟨rfl, hlt⟩
    · -- a conflict behind them has a later alternative in the first place
      obtain ⟨_, _, _, rfl⟩ := mem_conflictsWith.1 hd
      obtain ⟨c, _, hc, _, rfl⟩ := mem_rowConflicts.1 he
      exact ha c (hc.subset (by simp))

/-- A derivation does not see the order of the productions. -/
theorem derives_congr (h : ∀ p, p ∈ ps ↔ p ∈ ps') {u v : List Name} :
    Derives ps u v ↔ Derives ps' u v :=
  ⟨fun hd => hd.mono fun p => (h p).1, fun hd => hd.mono fun p => (h p).2⟩

/-- Neither does what follows. -/
theorem Follows.congr {c c' : Catalog} (hts : ∀ n, n ∈ c.terminals ↔ n ∈ c'.terminals)
    (hns : ∀ n, n ∈ c.nonterminals ↔ n ∈ c'.nonterminals) (hs : c.start = c'.start)
    (hps : ∀ p, p ∈ ps ↔ p ∈ ps') {b x : Name} (h : Follows c ps b x) : Follows c' ps' b x := by
  cases h with
  | terminal ht ha hd =>
    exact .terminal ((hts _).1 ht) ((hns _).1 ha) ((derives_congr hps).1 hd)
  | endMarker hs' hd => exact .endMarker (hs ▸ hs') ((derives_congr hps).1 hd)

namespace Grammar

variable {g g' : Grammar}

/-- A conflict is an unordered pair of alternatives of one declared non-terminal that share a name;
the lower number comes first. -/
theorem WellFormed.mem_conflicts_iff (h : g.WellFormed) {d : Conflict} :
    d ∈ g.conflicts ↔ d.lhs ∈ g.catalog.nonterminals ∧
      d.first ∈ alternativesOf g.productions d.lhs ∧
      d.second ∈ alternativesOf g.productions d.lhs ∧ d.first.index < d.second.index ∧
      (∃ x ∈ g.directorOf d.first, x ∈ g.directorOf d.second) ∧
      d.overlap = g.directorOf d.first ∩ g.directorOf d.second := by
  rw [h.mem_conflicts]
  constructor
  · rintro ⟨n, hn, a, b, hab, hx, rfl⟩
    obtain ⟨ha, hb, hlt⟩ := pair_sublist_alternativesOf_iff.1 hab
    exact ⟨hn, ha, hb, hlt, hx, rfl⟩
  · rintro ⟨hn, ha, hb, hlt, hx, ho⟩
    refine ⟨d.lhs, hn, d.first, d.second, pair_sublist_alternativesOf_iff.2 ⟨ha, hb, hlt⟩, hx, ?_⟩
    rw [← ho]

/-- The conflicts stand in the order of the catalog, and those of one name in the order of their
numbers. -/
theorem WellFormed.pairwise_conflicts (h : g.WellFormed) :
    g.conflicts.Pairwise (Conflict.ListedBefore g.catalog.nonterminals) := by
  rw [h.conflicts_eq, List.pairwise_flatMap]
  refine ⟨fun n _ => ?_, ?_⟩
  · have hrow : ((alternativesOf g.productions n).map fun a => (a, g.directorOf a)).Pairwise
        fun a b => a.1.index < b.1.index :=
      List.pairwise_map.2 (pairwise_index_alternativesOf g.productions n)
    refine (pairwise_rowConflicts hrow).imp_of_mem fun {d e} hd he hde => Or.inr ⟨?_, hde⟩
    obtain ⟨_, _, _, _, rfl⟩ := mem_rowConflicts.1 hd
    obtain ⟨_, _, _, _, rfl⟩ := mem_rowConflicts.1 he
    rfl
  · -- without repetitions, what stands before in the catalog has the smaller place
    rw [List.pairwise_iff_getElem]
    intro i j hi hj hij d hd e he
    obtain ⟨_, _, _, _, rfl⟩ := mem_rowConflicts.1 hd
    obtain ⟨_, _, _, _, rfl⟩ := mem_rowConflicts.1 he
    refine Or.inl ?_
    rwa [h.valid.nodup_nonterminals.idxOf_getElem, h.valid.nodup_nonterminals.idxOf_getElem]

/-- No pair of alternatives is listed twice. -/
theorem WellFormed.nodup_places (h : g.WellFormed) : (g.conflicts.map Conflict.place).Nodup :=
  List.pairwise_map.2 (h.pairwise_conflicts.imp Conflict.ListedBefore.place_ne)

/-- No conflict is listed twice. -/
theorem WellFormed.nodup_conflicts (h : g.WellFormed) : g.conflicts.Nodup :=
  h.nodup_places.of_map _

/-! ## 4. Tables -/

/-- The same is found out about both grammars. -/
structure SameTables (g g' : Grammar) : Prop where
  nullable : g'.nullable = g.nullable
  first : ∀ n, g'.first.get n = g.first.get n
  follow : ∀ n, g'.follow.get n = g.follow.get n

theorem WellFormed.mem_nullable_iff (h : g.WellFormed) {n : Name} :
    n ∈ g.nullable ↔ Derives g.productions [n] [] := by
  rw [← h.firstOfSequence_snd_iff, Lookahead.firstOfSequence_snd_iff, List.forall_mem_singleton]

theorem WellFormed.mem_first_iff (h : g.WellFormed) {n t : Name} :
    t ∈ g.first.get n ↔
      t ∈ g.catalog.terminals ∧ ∃ v, Derives g.productions [n] (t :: v) := by
  rw [← h.mem_firstOfSequence_iff, firstOfSequence_singleton]
  rfl

theorem WellFormed.mem_follow_iff (h : g.WellFormed) {n x : Name} :
    x ∈ g.follow.get n ↔
      n ∈ g.catalog.nonterminals ∧ Follows g.catalog g.productions n x :=
  ⟨h.followSound n x, fun ⟨hn, hx⟩ =>
    h.followClosed.mem_of_follows h.firstClosed h.checked hn hx⟩

/-- Grammars with the same names, start symbol and productions in any order have the same tables.
-/
theorem WellFormed.sameTables (h : g.WellFormed) (h' : g'.WellFormed)
    (hts : ∀ n, n ∈ g'.catalog.terminals ↔ n ∈ g.catalog.terminals)
    (hns : ∀ n, n ∈ g'.catalog.nonterminals ↔ n ∈ g.catalog.nonterminals)
    (hs : g'.catalog.start = g.catalog.start)
    (hps : ∀ p, p ∈ g'.productions ↔ p ∈ g.productions) : g.SameTables g' where
  nullable := by
    ext n
    rw [h'.mem_nullable_iff, h.mem_nullable_iff, derives_congr hps]
  first n := by
    ext t
    simp only [h'.mem_first_iff, h.mem_first_iff, hts, derives_congr hps]
  follow n := by
    ext x
    rw [h'.mem_follow_iff, h.mem_follow_iff, hns]
    exact and_congr_right fun _ => ⟨.congr hts hns hs hps,
      .congr (fun n => (hts n).symm) (fun n => (hns n).symm) hs.symm fun p => (hps p).symm⟩

/-- What stands ahead of a sequence is read from the tables. -/
theorem SameTables.firstOfSequence_eq (h : g.SameTables g') (u : List Name) :
    firstOfSequence g'.first g'.nullable u = firstOfSequence g.first g.nullable u := by
  induction u with
  | nil => rfl
  | cons n u ih =>
    rw [firstOfSequence_cons_eq, firstOfSequence_cons_eq, ih, front, front, h.first, h.nullable]

/-- Director sets depend on the two sides of an alternative only, not on its number. -/
theorem SameTables.directorOf_eq (h : g.SameTables g') (hlhs : a.lhs = b.lhs)
    (hrhs : a.rhs = b.rhs) : g'.directorOf a = g.directorOf b := by
  rw [directorOf, directorOf, directorSet, directorSet, h.firstOfSequence_eq, h.follow, hlhs, hrhs]

/-! ## 5. Order independence -/

/-- The director set of an alternative goes with it. -/
theorem SameTables.directorOf_alternative (h : g.SameTables g')
    (σ : Reordering g.productions g'.productions) (ha : a ∈ alternativesOf g.productions n) :
    g'.directorOf (σ.alternative a) = g.directorOf a := by
  have hlhs : (σ.alternative a).lhs = a.lhs := by
    rw [(mem_alternativesOf.1 ha).1, (mem_alternativesOf.1 (σ.alternative_mem ha)).1]
  exact h.directorOf_eq hlhs (σ.rhs_alternative ha)

/-- A conflict becomes a conflict. -/
theorem SameTables.conflict_mem (hsame : g.SameTables g') (h : g.WellFormed) (h' : g'.WellFormed)
    (hns : ∀ n, n ∈ g'.catalog.nonterminals ↔ n ∈ g.catalog.nonterminals)
    (σ : Reordering g.productions g'.productions) {d : Conflict} (hd : d ∈ g.conflicts) :
    σ.conflict d ∈ g'.conflicts := by
  obtain ⟨hn, ha, hb, hlt, ⟨x, hxa, hxb⟩, ho⟩ := h.mem_conflicts_iff.1 hd
  have hda := hsame.directorOf_alternative σ ha
  have hdb := hsame.directorOf_alternative σ hb
  have hne : (σ.alternative d.first).index ≠ (σ.alternative d.second).index := by
    intro he
    have heq := eq_of_index_eq (σ.alternative_mem ha) (σ.alternative_mem hb) he
    rw [← σ.alternative_symm ha, heq, σ.alternative_symm hb] at hlt
    exact Nat.lt_irrefl _ hlt
  rw [h'.mem_conflicts_iff]
  unfold Reordering.conflict
  by_cases hidx : (σ.alternative d.first).index < (σ.alternative d.second).index
  · rw [if_pos hidx]
    refine ⟨(hns d.lhs).2 hn, σ.alternative_mem ha, σ.alternative_mem hb, hidx, ?_, ?_⟩
    · exact ⟨x, hda ▸ hxa, hdb ▸ hxb⟩
    · simp only [hda, hdb, ho]
  · rw [if_neg hidx]
    refine ⟨(hns d.lhs).2 hn, σ.alternative_mem hb, σ.alternative_mem ha,
      Nat.lt_of_le_of_ne (Nat.not_lt.1 hidx) hne.symm, ?_, ?_⟩
    · exact ⟨x, hdb ▸ hxb, hda ▸ hxa⟩
    · ext y
      simp only [hda, hdb, ho, NameSet.mem_inter, and_comm]

theorem SameTables.symm (h : g.SameTables g') : g'.SameTables g :=
  ⟨h.nullable.symm, fun n => (h.first n).symm, fun n => (h.follow n).symm⟩

/-- The conflicts of one grammar, renumbered, are those of the other. -/
theorem SameTables.perm_conflicts (hsame : g.SameTables g') (h : g.WellFormed)
    (h' : g'.WellFormed)
    (hns : ∀ n, n ∈ g'.catalog.nonterminals ↔ n ∈ g.catalog.nonterminals)
    (σ : Reordering g.productions g'.productions) :
    (g.conflicts.map σ.conflict).Perm g'.conflicts := by
  have hback : ∀ d ∈ g.conflicts, σ.symm.conflict (σ.conflict d) = d := fun d hd => by
    obtain ⟨_, ha, hb, hlt, _⟩ := h.mem_conflicts_iff.1 hd
    exact σ.conflict_symm ha hb hlt
  have hinj : ∀ d ∈ g.conflicts, ∀ e ∈ g.conflicts, σ.conflict d = σ.conflict e → d = e :=
    fun d hd e he hde => by rw [← hback d hd, hde, hback e he]
  refine (List.perm_ext_iff_of_nodup (h.nodup_conflicts.map_on hinj) h'.nodup_conflicts).2 ?_
  intro d
  constructor
  · intro hd
    obtain ⟨e, he, rfl⟩ := List.mem_map.1 hd
    exact hsame.conflict_mem h h' hns σ he
  · intro hd
    obtain ⟨_, ha, hb, hlt, _⟩ := h'.mem_conflicts_iff.1 hd
    have he := hsame.symm.conflict_mem h' h (fun n => (hns n).symm) σ.symm hd
    exact List.mem_map.2 ⟨σ.symm.conflict d, he, σ.symm.conflict_symm ha hb hlt⟩

/-- Whether a grammar comes of names and productions does not depend on their order either. -/
theorem exists_plain_congr {ts ts' ns ns' : List Name} {start : Option Name}
    (hts : ∀ n, n ∈ ts' ↔ n ∈ ts) (hns : ∀ n, n ∈ ns' ↔ n ∈ ns) (hps : ∀ p, p ∈ ps' ↔ p ∈ ps)
    (h : ∃ g, plain ts ns ps start = .ok g) : ∃ g', plain ts' ns' ps' start = .ok g' := by
  rw [exists_plain_iff] at h ⊢
  simpa only [hts, hns, hps] using h

/-- **Order independence.**  Let terminals, non-terminals and productions be given in another order,
the names repeated or not.  If a grammar comes of them, one comes of them in the new order as well.
The same is found out about both, one is LL(1) exactly if the other is, and however the productions
are matched, the conflicts of the one are the conflicts of the other, with the alternatives
renumbered and the same names in the overlaps. -/
theorem exists_plain_of_perm {ts ts' ns ns' : List Name} {start : Option Name}
    (hts : ∀ n, n ∈ ts' ↔ n ∈ ts) (hns : ∀ n, n ∈ ns' ↔ n ∈ ns) (hps : ps.Perm ps')
    (h : plain ts ns ps start = .ok g) :
    ∃ g', plain ts' ns' ps' start = .ok g' ∧ g.SameTables g' ∧ g'.isLL1 = g.isLL1 ∧
      Nonempty (Reordering ps ps') ∧
      ∀ σ : Reordering ps ps', (g.conflicts.map σ.conflict).Perm g'.conflicts := by
  obtain ⟨g', h'⟩ := exists_plain_congr hts hns (fun _ => hps.symm.mem_iff) ⟨g, h⟩
  have hg := wellFormed_of_plain h
  have hg' := wellFormed_of_plain h'
  obtain rfl := eq_analyse_of_plain h
  obtain rfl := eq_analyse_of_plain h'
  have hns' : ∀ n, n ∈ firstOccurrences ns' ↔ n ∈ firstOccurrences ns := by simpa using hns
  have hsame := hg.sameTables hg' (by simpa [analyse] using hts) hns' rfl fun _ => hps.symm.mem_iff
  obtain ⟨σ⟩ := Reordering.nonempty_of_perm hps
  refine ⟨_, h', hsame, ?_, ⟨σ⟩, hsame.perm_conflicts hg hg' hns'⟩
  rw [isLL1, isLL1, ← (hsame.perm_conflicts hg hg' hns' σ).isEmpty_eq, List.isEmpty_map]

/-- The alternatives `a S` and `a` are in conflict; the second is moved in front of the first. -/
theorem exists_plain_of_swapped :
    let ps : List Production := [⟨"S", ["a", "S"]⟩, ⟨"S", []⟩, ⟨"S", ["a"]⟩]
    let ps' : List Production := [⟨"S", ["a"]⟩, ⟨"S", ["a", "S"]⟩, ⟨"S", []⟩]
    ∃ g, plain ["a"] ["S"] ps (some "S") = .ok g ∧
      ∃ g', plain ["a", "a"] ["S", "S"] ps' (some "S") = .ok g' ∧ g.SameTables g' ∧
        g'.isLL1 = g.isLL1 ∧ Nonempty (Reordering ps ps') ∧
        ∀ σ : Reordering ps ps', (g.conflicts.map σ.conflict).Perm g'.conflicts := by
  intro ps ps'
  have hg : plain ["a"] ["S"] ps (some "S") = .ok (analyse (.frozen ["a"] ["S"] (some "S")) ps) := rfl
  exact ⟨_, hg, exists_plain_of_perm (by simp) (by simp) (by decide) hg⟩

end Grammar

end Lookahead
