import Lookahead.Analysis.Director
import Lookahead.Proofs.Nullable

/-!
# FIRST is exact

## 1. What can stand ahead

FIRST of a sequence says what words derived from it start with, as long as they are not empty.
For the empty word one has to know what stands behind.  `ahead` puts the two together: given the
names that can stand behind a sequence, it gives those that can stand at its front.  It takes two
sequences in a row one after the other, from the right end (`ahead_append`).  The trailer of the
FOLLOW scan and the director set of an alternative are both of this kind.

## 2. Closed tables

A pair of a nullable set and a FIRST table is **closed** if no production can add to it.  Along a
derivation, what stands ahead then only becomes less (`FirstClosed.ahead_le_of_derives`).  This is
all that completeness needs: what stands ahead of a word is its first symbol, and what the word was
derived from has the same name ahead.

## 3. Sound tables

The pair is **sound** if its entries are witnessed by derivations.  Then so is FIRST of any sequence
(`FirstSound.derives_of_mem_firstOfSequence`).

The computed pair is closed and sound, and so FIRST of a sequence is exact
(`mem_firstOfSequence_iff`).
-/

namespace Lookahead

variable {c : Catalog} {ps : List Production} {nullable behind : NameSet} {first : Table}

/-! ## 1. What can stand ahead -/

theorem firstOfSequence_mono {first' : Table} (h : first ≤ first') (nullable : NameSet)
    (u : List Name) :
    (firstOfSequence first nullable u).1 ≤ (firstOfSequence first' nullable u).1 := by
  induction u with
  | nil => exact le_rfl
  | cons n u ih =>
    by_cases hn : n ∈ nullable
    · rw [firstOfSequence_cons_nullable hn, firstOfSequence_cons_nullable hn]
      exact NameSet.union_le_union (h n) ih
    · rw [firstOfSequence_cons hn, firstOfSequence_cons hn]
      exact h n

theorem firstOfSequence_snd_iff (first : Table) (nullable : NameSet) (u : List Name) :
    (firstOfSequence first nullable u).2 = true ↔ ∀ n ∈ u, n ∈ nullable := by
  rw [firstOfSequence_snd]
  simp

/-- FIRST of a sequence holds nothing that FIRST of none of its names holds. -/
theorem exists_mem_of_mem_firstOfSequence {u : List Name} {t : Name}
    (ht : t ∈ (firstOfSequence first nullable u).1) : ∃ n ∈ u, t ∈ first.get n := by
  induction u with
  | nil => exact absurd ht (NameSet.not_mem_empty t)
  | cons n u ih =>
    by_cases hn : n ∈ nullable
    · rw [firstOfSequence_cons_nullable hn] at ht
      rcases NameSet.mem_union.1 ht with ht | ht
      · exact ⟨n, List.mem_cons_self, ht⟩
      · obtain ⟨m, hm, ht⟩ := ih ht
        exact ⟨m, List.mem_cons_of_mem n hm, ht⟩
    · rw [firstOfSequence_cons hn] at ht
      exact ⟨n, List.mem_cons_self, ht⟩

/-- The names that can stand at the front of a sequence that has `behind` behind it. -/
def ahead (first : Table) (nullable behind : NameSet) (u : List Name) : NameSet :=
  if (firstOfSequence first nullable u).2 then (firstOfSequence first nullable u).1 ∪ behind
  else (firstOfSequence first nullable u).1

theorem mem_ahead {u : List Name} {x : Name} :
    x ∈ ahead first nullable behind u ↔
      x ∈ (firstOfSequence first nullable u).1 ∨ (∀ n ∈ u, n ∈ nullable) ∧ x ∈ behind := by
  rw [← firstOfSequence_snd_iff first, ahead]
  split
  · rename_i h
    simp [h]
  · rename_i h
    simp [h]

/-- The director set of an alternative is what can stand ahead of its right-hand side. -/
theorem directorSet_eq_ahead (first follow : Table) (nullable : NameSet) (a : Alternative) :
    directorSet first follow nullable a = ahead first nullable (follow.get a.lhs) a.rhs := rfl

@[simp] theorem ahead_nil : ahead first nullable behind [] = behind := by
  ext x
  simp [mem_ahead]

theorem ahead_cons_nullable {n : Name} (h : n ∈ nullable) (u : List Name) :
    ahead first nullable behind (n :: u) = first.get n ∪ ahead first nullable behind u := by
  ext x
  rw [mem_ahead, firstOfSequence_cons_nullable h, NameSet.mem_union, NameSet.mem_union, mem_ahead,
    List.forall_mem_cons, or_assoc]
  simp [h]

theorem ahead_cons {n : Name} (h : n ∉ nullable) (u : List Name) :
    ahead first nullable behind (n :: u) = first.get n := by
  ext x
  rw [mem_ahead, firstOfSequence_cons h, List.forall_mem_cons]
  simp [h]

theorem ahead_append (u v : List Name) :
    ahead first nullable behind (u ++ v) =
      ahead first nullable (ahead first nullable behind v) u := by
  induction u with
  | nil => rw [List.nil_append, ahead_nil]
  | cons n u ih =>
    rw [List.cons_append]
    by_cases hn : n ∈ nullable
    · rw [ahead_cons_nullable hn, ahead_cons_nullable hn, ih]
    · rw [ahead_cons hn, ahead_cons hn]

/-- The more can stand behind, the more can stand ahead. -/
theorem ahead_mono {behind' : NameSet} (h : behind ≤ behind') (u : List Name) :
    ahead first nullable behind u ≤ ahead first nullable behind' u := fun _ hx =>
  mem_ahead.2 ((mem_ahead.1 hx).imp_right fun ⟨hu, hx⟩ => ⟨hu, h _ hx⟩)

/-! ## 2. Closed tables -/

/-- No production adds to the nullable set or to the FIRST table, and terminals start with
themselves. -/
structure FirstClosed (c : Catalog) (ps : List Production) (nullable : NameSet) (first : Table) :
    Prop where
  mem_terminal : ∀ t ∈ c.terminals, t ∈ first.get t
  lhs_mem : ∀ p ∈ ps, (∀ n ∈ p.rhs, n ∈ nullable) → p.lhs ∈ nullable
  rhs_le : ∀ p ∈ ps, (firstOfSequence first nullable p.rhs).1 ≤ first.get p.lhs

namespace FirstClosed

/-- Ahead of a left-hand side stands all that stands ahead of the right-hand side. -/
theorem ahead_rhs_le (h : FirstClosed c ps nullable first) {p : Production} (hp : p ∈ ps)
    (after : List Name) :
    ahead first nullable behind (p.rhs ++ after) ≤
      ahead first nullable behind (p.lhs :: after) := by
  rw [ahead_append]
  intro x hx
  rcases mem_ahead.1 hx with hx | ⟨hr, hx⟩
  · have hl := h.rhs_le p hp x hx
    by_cases hn : p.lhs ∈ nullable
    · rw [ahead_cons_nullable hn]
      exact NameSet.mem_union.2 (Or.inl hl)
    · rwa [ahead_cons hn]
  · rw [ahead_cons_nullable (h.lhs_mem p hp hr)]
    exact NameSet.mem_union.2 (Or.inr hx)

theorem ahead_le_of_step (h : FirstClosed c ps nullable first) {u v : List Name}
    (hs : Step ps u v) : ahead first nullable behind v ≤ ahead first nullable behind u := by
  obtain ⟨hp, before, after⟩ := hs
  rw [List.append_assoc, ahead_append, ahead_append before]
  exact ahead_mono (h.ahead_rhs_le hp after) before

/-- Along a derivation, what stands ahead becomes less. -/
theorem ahead_le_of_derives (h : FirstClosed c ps nullable first) {u v : List Name}
    (hd : Derives ps u v) : ahead first nullable behind v ≤ ahead first nullable behind u := by
  induction hd with
  | refl => exact le_rfl
  | tail _ step ih => exact (h.ahead_le_of_step step).trans ih

/-- A terminal at the front stands ahead. -/
theorem mem_ahead_cons (h : FirstClosed c ps nullable first) {t : Name} (ht : t ∈ c.terminals)
    (behind : NameSet) (u : List Name) : t ∈ ahead first nullable behind (t :: u) := by
  by_cases hn : t ∈ nullable
  · rw [ahead_cons_nullable hn]
    exact NameSet.mem_union.2 (Or.inl (h.mem_terminal t ht))
  · rw [ahead_cons hn]
    exact h.mem_terminal t ht

/-- What a parser sees in front of a word stands ahead of everything that the word can be derived
from, the end marker being behind. -/
theorem lookahead_mem_ahead (h : FirstClosed c ps nullable first) {u x : List Name}
    (hd : Derives ps u x) (hx : c.IsWord x) :
    lookahead x ∈ ahead first nullable (.singleton endMarker) u := by
  refine h.ahead_le_of_derives hd _ ?_
  cases x with
  | nil => simp
  | cons t x => exact h.mem_ahead_cons (hx t List.mem_cons_self) _ x

/-- A terminal at the front of a sentential form is in FIRST of what the form was derived from. -/
theorem mem_firstOfSequence (h : FirstClosed c ps nullable first) {u v : List Name} {t : Name}
    (ht : t ∈ c.terminals) (hd : Derives ps u (t :: v)) :
    t ∈ (firstOfSequence first nullable u).1 := by
  have hmem := h.ahead_le_of_derives hd t (h.mem_ahead_cons ht ∅ v)
  exact (mem_ahead.1 hmem).resolve_right fun ⟨_, hx⟩ => NameSet.not_mem_empty t hx

end FirstClosed

/-! ## 3. Sound tables -/

/-- The entries of a nullable set and a FIRST table are witnessed by derivations. -/
structure FirstSound (ps : List Production) (nullable : NameSet) (first : Table) : Prop where
  derives_nil : ∀ n ∈ nullable, Derives ps [n] []
  derives_cons : ∀ n, ∀ t ∈ first.get n, ∃ v, Derives ps [n] (t :: v)

namespace FirstSound

theorem derives_of_mem_firstOfSequence (h : FirstSound ps nullable first) {u : List Name}
    {t : Name} (ht : t ∈ (firstOfSequence first nullable u).1) :
    ∃ v, Derives ps u (t :: v) := by
  induction u with
  | nil => exact absurd ht (NameSet.not_mem_empty t)
  | cons n u ih =>
    have hfirst : t ∈ first.get n → ∃ v, Derives ps (n :: u) (t :: v) := by
      intro ht
      obtain ⟨v, hv⟩ := h.derives_cons n t ht
      exact ⟨v ++ u, hv.append_right u⟩
    by_cases hn : n ∈ nullable
    · rw [firstOfSequence_cons_nullable hn] at ht
      rcases NameSet.mem_union.1 ht with ht | ht
      · exact hfirst ht
      · obtain ⟨v, hv⟩ := ih ht
        exact ⟨v, (h.derives_nil n hn).append hv⟩
    · rw [firstOfSequence_cons hn] at ht
      exact hfirst ht

end FirstSound

/-! ## 4. The computed table -/

theorem get_initialFirst (c : Catalog) {n t : Name} :
    t ∈ (initialFirst c).get n ↔ n ∈ c.terminals ∧ t = n := by
  have h : ∀ (ts : List Name) (table : Table),
      t ∈ (ts.foldl (fun t n => t.add n (.singleton n)) table).get n ↔
        n ∈ ts ∧ t = n ∨ t ∈ table.get n := by
    intro ts
    induction ts with
    | nil => simp
    | cons m ts ih =>
      intro table
      rw [List.foldl_cons, ih, Table.get_add]
      by_cases hm : n = m
      · subst hm
        simp only [if_true, NameSet.mem_union, NameSet.mem_singleton, List.mem_cons]
        tauto
      · simp [hm]
  rw [initialFirst, h]
  simp

theorem isGrowing_firstStep (nullable : NameSet) : IsGrowing (firstStep nullable) where
  le first p := Table.le_add first p.lhs _
  mono p _ _ h := Table.add_mono h p.lhs (firstOfSequence_mono h nullable p.rhs)

/-- What every state of the repetition satisfies: FIRST sets consist of terminals, and those of
terminals and undeclared names are what they were at the beginning. -/
structure FirstBounded (c : Catalog) (first : Table) : Prop where
  mem_terminals : ∀ n, ∀ t ∈ first.get n, t ∈ c.terminals
  get_eq : ∀ n, n ∉ c.nonterminals → first.get n = (initialFirst c).get n

theorem firstBounded_initialFirst (c : Catalog) : FirstBounded c (initialFirst c) where
  mem_terminals n t ht := by
    obtain ⟨hn, rfl⟩ := (get_initialFirst c).1 ht
    exact hn
  get_eq _ _ := rfl

theorem FirstBounded.firstStep (h : Checked c ps) (hf : FirstBounded c first) {p : Production}
    (hp : p ∈ ps) (nullable : NameSet) : FirstBounded c (firstStep nullable first p) where
  mem_terminals n t ht := by
    rw [Lookahead.firstStep, Table.get_add] at ht
    split at ht
    · rcases NameSet.mem_union.1 ht with ht | ht
      · exact hf.mem_terminals _ t ht
      · obtain ⟨m, -, hm⟩ := exists_mem_of_mem_firstOfSequence ht
        exact hf.mem_terminals m t hm
    · exact hf.mem_terminals n t ht
  get_eq n hn := by
    rw [Lookahead.firstStep, Table.get_add_of_ne, hf.get_eq n hn]
    rintro rfl
    exact hn (h.lhs_mem hp)

theorem firstBounded_firstTable (h : Checked c ps) (nullable : NameSet) :
    FirstBounded c (firstTable c ps nullable) :=
  saturate_foldl_induction (fun _ _ hp hs => hs.firstStep h hp nullable)
    (firstBounded_initialFirst c)

/-- Such tables are measured by the number of members of the sets of the non-terminals. -/
theorem isMeasured_firstBounded (c : Catalog) :
    IsMeasured (FirstBounded c) (fun t => t.sizeOver c.nonterminals)
      (c.nonterminals.length * c.terminals.length) where
  mono _ _ hst := Table.sizeOver_mono hst c.nonterminals
  size_le _ hs := Table.sizeOver_le fun n _ => NameSet.size_le_length (hs.mem_terminals n)
  tight s t hs ht hst hsize n := by
    by_cases hn : n ∈ c.nonterminals
    · exact Table.get_le_of_sizeOver_le hst hsize n hn
    · rw [hs.get_eq n hn, ht.get_eq n hn]

/-- The computed tables are closed. -/
theorem firstClosed_firstTable (h : Checked c ps) :
    FirstClosed c ps (nullableSet c ps) (firstTable c ps (nullableSet c ps)) where
  mem_terminal t ht := by
    have hb := firstBounded_firstTable h (nullableSet c ps)
    rw [hb.get_eq t (h.valid.disjoint t ht)]
    exact (get_initialFirst c).2 ⟨ht, rfl⟩
  lhs_mem _ hp hr := lhs_mem_nullableSet h hp hr
  rhs_le p hp := by
    have closed : firstStep (nullableSet c ps) (firstTable c ps (nullableSet c ps)) p ≤
        firstTable c ps (nullableSet c ps) :=
      step_saturate_le (isGrowing_firstStep _) (isMeasured_firstBounded c)
        (fun _ _ hp hs => hs.firstStep h hp _) (firstBounded_initialFirst c) hp
    exact (Table.add_le_iff.1 closed).2

/-- The computed tables are sound. -/
theorem firstSound_firstTable (c : Catalog) (ps : List Production) :
    FirstSound ps (nullableSet c ps) (firstTable c ps (nullableSet c ps)) := by
  have hnull : ∀ n ∈ nullableSet c ps, Derives ps [n] [] :=
    fun n hn => derives_nil_of_mem_nullableSet hn
  refine saturate_foldl_induction (I := FirstSound ps (nullableSet c ps)) ?_ ⟨hnull, ?_⟩
  · -- a step adds what can be derived from the right-hand side
    intro first p hp hs
    refine ⟨hnull, fun n t ht => ?_⟩
    rw [firstStep, Table.get_add] at ht
    split at ht
    · rename_i hn
      subst hn
      rcases NameSet.mem_union.1 ht with ht | ht
      · exact hs.derives_cons _ t ht
      · obtain ⟨v, hv⟩ := hs.derives_of_mem_firstOfSequence ht
        exact ⟨v, (Derives.of_mem hp).trans hv⟩
    · exact hs.derives_cons n t ht
  · intro n t ht
    obtain ⟨-, rfl⟩ := (get_initialFirst c).1 ht
    exact ⟨[], .refl _⟩

/-! ## 5. Exactness -/

/-- FIRST of a sequence holds exactly the terminals at the front of the sequences derived from it.
-/
theorem mem_firstOfSequence_iff (h : Checked c ps) {u : List Name} {t : Name} :
    t ∈ (firstOfSequence (firstTable c ps (nullableSet c ps)) (nullableSet c ps) u).1 ↔
      t ∈ c.terminals ∧ ∃ v, Derives ps u (t :: v) := by
  constructor
  · intro ht
    obtain ⟨m, -, hm⟩ := exists_mem_of_mem_firstOfSequence ht
    exact ⟨(firstBounded_firstTable h _).mem_terminals m t hm,
      (firstSound_firstTable c ps).derives_of_mem_firstOfSequence ht⟩
  · rintro ⟨ht, v, hd⟩
    exact (firstClosed_firstTable h).mem_firstOfSequence ht hd

/-- A sequence is found to be nullable exactly if it derives the empty one. -/
theorem firstOfSequence_snd_iff_derives (h : Checked c ps) {first : Table} {u : List Name} :
    (firstOfSequence first (nullableSet c ps) u).2 = true ↔ Derives ps u [] := by
  rw [firstOfSequence_snd_iff, forall_mem_nullableSet_iff h]

end Lookahead
