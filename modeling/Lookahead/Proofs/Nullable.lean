import Lookahead.Proofs.Derivation
import Lookahead.Proofs.Growth

/-!
# Nullable is exact

The nullable set holds exactly the non-terminals that derive the empty word.

* It holds no others, because every state of the repetition holds only such: if all names of a
  right-hand side derive the empty word, so does the left-hand side
  (`derives_nil_of_mem_nullableSet`).
* It holds them all, because it is closed: a derivation of the empty word is followed backwards,
  and a step backwards leads from nullable names to nullable names
  (`mem_nullableSet_of_derives_nil`).

Neither argument looks at how a derivation goes round: a cycle of non-terminals is left by the
step that stands at the end of it.
-/

namespace Lookahead

variable {c : Catalog} {ps : List Production}

theorem isGrowing_nullableStep : IsGrowing nullableStep where
  le s p := by
    unfold nullableStep
    split
    · exact fun n hn => NameSet.mem_insert.2 (Or.inr hn)
    · exact le_rfl
  mono p s t hst := by
    show nullableStep s p ≤ nullableStep t p
    unfold nullableStep
    by_cases hs : p.rhs.all (· ∈ s) = true
    · have ht : p.rhs.all (· ∈ t) = true := by
        simp only [List.all_eq_true, decide_eq_true_eq] at hs ⊢
        exact fun n hn => hst n (hs n hn)
      rw [if_pos hs, if_pos ht]
      intro n hn
      exact NameSet.mem_insert.2 ((NameSet.mem_insert.1 hn).imp_right (hst n))
    · rw [if_neg hs]
      split
      · exact fun n hn => NameSet.mem_insert.2 (Or.inr (hst n hn))
      · exact hst

/-- A step that adds a name adds the left-hand side, and knows the whole right-hand side. -/
theorem mem_nullableStep {s : NameSet} {p : Production} {n : Name}
    (hn : n ∈ nullableStep s p) : n ∈ s ∨ n = p.lhs ∧ ∀ m ∈ p.rhs, m ∈ s := by
  unfold nullableStep at hn
  split at hn
  · rename_i hall
    rcases NameSet.mem_insert.1 hn with rfl | hn
    · exact Or.inr ⟨rfl, by simpa using hall⟩
    · exact Or.inl hn
  · exact Or.inl hn

theorem lhs_mem_nullableStep {s : NameSet} {p : Production} (h : ∀ m ∈ p.rhs, m ∈ s) :
    p.lhs ∈ nullableStep s p := by
  have hall : p.rhs.all (· ∈ s) = true := by simpa using h
  rw [nullableStep, if_pos hall]
  exact NameSet.mem_insert.2 (Or.inl rfl)

/-- A step keeps to the declared non-terminals. -/
theorem mem_nonterminals_of_mem_nullableStep (h : Checked c ps) {s : NameSet} {p : Production}
    (hp : p ∈ ps) (hs : ∀ n ∈ s, n ∈ c.nonterminals) :
    ∀ n ∈ nullableStep s p, n ∈ c.nonterminals := by
  intro n hn
  rcases mem_nullableStep hn with hn | ⟨rfl, -⟩
  · exact hs n hn
  · exact h.lhs_mem hp

/-- Nullable names are declared non-terminals. -/
theorem mem_nonterminals_of_mem_nullableSet (h : Checked c ps) {n : Name}
    (hn : n ∈ nullableSet c ps) : n ∈ c.nonterminals :=
  saturate_foldl_induction (I := fun s => ∀ n ∈ s, n ∈ c.nonterminals)
    (fun _ _ hp hs => mem_nonterminals_of_mem_nullableStep h hp hs)
    (fun n hn => absurd hn (NameSet.not_mem_empty n)) n hn

theorem notMem_nullableSet_of_mem_terminals (h : Checked c ps) {n : Name}
    (hn : n ∈ c.terminals) : n ∉ nullableSet c ps := fun hm =>
  h.valid.disjoint n hn (mem_nonterminals_of_mem_nullableSet h hm)

/-- Names that derive the empty word one by one derive it in a row. -/
theorem derives_nil_of_forall_mem {u : List Name} (h : ∀ n ∈ u, Derives ps [n] []) :
    Derives ps u [] := by
  induction u with
  | nil => exact .refl []
  | cons n u ih =>
    exact (h n List.mem_cons_self).append (ih fun m hm => h m (List.mem_cons_of_mem n hm))

/-- Nullable names derive the empty word. -/
theorem derives_nil_of_mem_nullableSet {n : Name} (hn : n ∈ nullableSet c ps) :
    Derives ps [n] [] := by
  refine saturate_foldl_induction (I := fun s => ∀ n ∈ s, Derives ps [n] []) ?_
    (fun n hn => absurd hn (NameSet.not_mem_empty n)) n hn
  intro s p hp hs n hn
  rcases mem_nullableStep hn with hn | ⟨rfl, hr⟩
  · exact hs n hn
  · exact (Derives.of_mem hp).trans (derives_nil_of_forall_mem fun m hm => hs m (hr m hm))

/-- Sets of some names are measured by the number of their members. -/
theorem isMeasured_size (ns : List Name) :
    IsMeasured (fun s : NameSet => ∀ n ∈ s, n ∈ ns) NameSet.size ns.length where
  mono _ _ := NameSet.size_mono
  size_le _ := NameSet.size_le_length
  tight _ _ _ _ := NameSet.le_of_size_le

/-- The nullable set is closed under the productions. -/
theorem lhs_mem_nullableSet (h : Checked c ps) {p : Production} (hp : p ∈ ps)
    (hr : ∀ m ∈ p.rhs, m ∈ nullableSet c ps) : p.lhs ∈ nullableSet c ps := by
  have closed : nullableStep (nullableSet c ps) p ≤ nullableSet c ps :=
    step_saturate_le isGrowing_nullableStep (isMeasured_size c.nonterminals)
      (fun _ _ hp hs => mem_nonterminals_of_mem_nullableStep h hp hs)
      (fun n hn => absurd hn (NameSet.not_mem_empty n)) hp
  exact closed p.lhs (lhs_mem_nullableStep hr)

/-- Whatever derives the empty word consists of nullable names. -/
theorem mem_nullableSet_of_derives_nil (h : Checked c ps) {u : List Name}
    (hd : Derives ps u []) : ∀ n ∈ u, n ∈ nullableSet c ps := by
  induction hd using Relation.ReflTransGen.head_induction_on with
  | refl => exact fun n hn => absurd hn List.not_mem_nil
  | head step _ ih =>
    obtain ⟨hp, before, after⟩ := step
    intro n hn
    rcases List.mem_append.1 hn with hn | hn
    · exact ih n (by simp [hn])
    · rcases List.mem_cons.1 hn with rfl | hn
      · exact lhs_mem_nullableSet h hp fun m hm => ih m (by simp [hm])
      · exact ih n (by simp [hn])

/-- The nullable set holds a whole sequence exactly if the sequence derives the empty word. -/
theorem forall_mem_nullableSet_iff (h : Checked c ps) {u : List Name} :
    (∀ n ∈ u, n ∈ nullableSet c ps) ↔ Derives ps u [] :=
  ⟨fun hu => derives_nil_of_forall_mem fun n hn => derives_nil_of_mem_nullableSet (hu n hn),
    mem_nullableSet_of_derives_nil h⟩

/-- **Nullable is exact.**  For productions accepted on a frozen catalog, a name is found to be
nullable exactly if it is a declared non-terminal and derives the empty word. -/
theorem mem_nullableSet_iff {ts ns : List Name} {s : Option Name}
    (hc : Catalog.new.freeze ts ns s = .ok c) (hps : c.checkProductions ps = .ok ps) {n : Name} :
    n ∈ nullableSet c ps ↔ n ∈ c.nonterminals ∧ Derives ps [n] [] := by
  have h : Checked c ps := .of_freeze hc hps
  constructor
  · intro hn
    exact ⟨mem_nonterminals_of_mem_nullableSet h hn, derives_nil_of_mem_nullableSet hn⟩
  · rintro ⟨-, hd⟩
    exact mem_nullableSet_of_derives_nil h hd n List.mem_cons_self

/-- The empty word lies behind the cycle of `S` and `A`, and `B` has to vanish twice. -/
theorem mem_nullableSet_of_cycle :
    let c : Catalog := .frozen ["a"] ["S", "A", "B"] (some "S")
    let ps : List Production := [⟨"S", ["A"]⟩, ⟨"A", ["S"]⟩, ⟨"A", ["B", "B"]⟩, ⟨"B", []⟩]
    Catalog.new.freeze ["a"] ["S", "A", "B"] (some "S") = .ok c ∧
      c.checkProductions ps = .ok ps ∧ ("S" : Name) ∈ nullableSet c ps := by
  intro c ps
  have hc : Catalog.new.freeze ["a"] ["S", "A", "B"] (some "S") = .ok c := by decide
  have hps : c.checkProductions ps = .ok ps := by decide
  refine ⟨hc, hps, (mem_nullableSet_iff hc hps).2 ⟨by decide, ?_⟩⟩
  have hs : Derives ps ["S"] ["A"] := .of_mem (p := ⟨"S", ["A"]⟩) (by simp [ps])
  have ha : Derives ps ["A"] ["B", "B"] := .of_mem (p := ⟨"A", ["B", "B"]⟩) (by simp [ps])
  have hb : Derives ps ["B"] [] := .of_mem (p := ⟨"B", []⟩) (by simp [ps])
  exact hs.trans (ha.trans (hb.append hb))

end Lookahead
