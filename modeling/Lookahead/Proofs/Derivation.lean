import Lookahead.Grammar.Derivation
import Lookahead.Grammar.WellFormed

/-!
# Taking derivations apart

A derivation step looks at one name and at nothing around it.  Hence a derivation from two
sequences in a row is two derivations side by side (`Derives.split`), a terminal stays where it is
(`Derives.eq_of_isWord`), and a name met in a sentential form has an **origin**: in the form before,
it stood in front of the place that was replaced or behind it, or else the step wrote it
(`Step.origin`).  An invariant of sentential forms that speaks of one occurrence and its context is
proved by these three cases.

A frozen catalog with productions over it is called **checked** (`Checked`); every grammar is one
(`Grammar.WellFormed.checked`).  No terminal is a left-hand side there.
-/

namespace Lookahead

/-! ## 1. Checked productions -/

/-- A frozen catalog and productions over it. -/
structure Checked (c : Catalog) (ps : List Production) : Prop where
  valid : c.Valid
  isFrozen : c.isFrozen = true
  declares : ∀ p ∈ ps, c.Declares p

/-- What freezing and checking let through is checked. -/
theorem Checked.of_freeze {c : Catalog} {ts ns : List Name} {s : Option Name}
    {ps : List Production} (hc : Catalog.new.freeze ts ns s = .ok c)
    (hps : c.checkProductions ps = .ok ps) : Checked c ps :=
  ⟨Catalog.valid_of_freeze Catalog.valid_new hc, Catalog.isFrozen_of_freeze hc,
    (Catalog.checkProductions_eq_ok_iff.1 hps).2⟩

theorem Grammar.WellFormed.checked {g : Grammar} (h : g.WellFormed) :
    Checked g.catalog g.productions :=
  ⟨h.valid, h.isFrozen, h.declares⟩

variable {c : Catalog} {ps : List Production}

namespace Checked

theorem lhs_mem (h : Checked c ps) {p : Production} (hp : p ∈ ps) : p.lhs ∈ c.nonterminals :=
  (h.declares p hp).1

theorem rhs_mem (h : Checked c ps) {p : Production} (hp : p ∈ ps) {n : Name} (hn : n ∈ p.rhs) :
    n ∈ c.terminals ∨ n ∈ c.nonterminals :=
  (h.declares p hp).2 n hn

theorem lhs_notMem (h : Checked c ps) {p : Production} (hp : p ∈ ps) : p.lhs ∉ c.terminals :=
  fun ht => h.valid.disjoint p.lhs ht (h.lhs_mem hp)

/-- Derivations stay among the declared names. -/
theorem declared_of_derives (h : Checked c ps) {u v : List Name} (hd : Derives ps u v)
    (hu : ∀ n ∈ u, n ∈ c.terminals ∨ n ∈ c.nonterminals) :
    ∀ n ∈ v, n ∈ c.terminals ∨ n ∈ c.nonterminals := by
  induction hd with
  | refl => exact hu
  | tail _ step ih =>
    obtain ⟨hp, before, after⟩ := step
    rw [List.forall_mem_append, List.forall_mem_cons] at ih
    rw [List.forall_mem_append, List.forall_mem_append]
    exact ⟨⟨ih.1, fun n hn => h.rhs_mem hp hn⟩, ih.2.2⟩

end Checked

/-! ## 2. Two sequences in a row -/

/-- A name between two stretches of a concatenation lies in one of the two parts. -/
theorem exists_of_append_eq_append_cons {u v before after : List Name} {n : Name}
    (h : u ++ v = before ++ n :: after) :
    (∃ mid, u = before ++ n :: mid ∧ after = mid ++ v) ∨
      ∃ mid, v = mid ++ n :: after ∧ before = u ++ mid := by
  rcases List.append_eq_append_iff.1 h with ⟨mid, hb, hv⟩ | ⟨mid, hu, hm⟩
  · exact Or.inr ⟨mid, hv, hb⟩
  · cases mid with
    | nil =>
      refine Or.inr ⟨[], ?_, ?_⟩
      · rw [List.nil_append, hm, List.nil_append]
      · rw [hu, List.append_nil, List.append_nil]
    | cons m mid =>
      rw [List.cons_append] at hm
      obtain ⟨rfl, rfl⟩ := List.cons.inj hm
      exact Or.inl ⟨mid, hu, rfl⟩

/-- A step in two sequences in a row is a step in one of them. -/
theorem Step.split {u v w : List Name} (h : Step ps (u ++ v) w) :
    (∃ u', Step ps u u' ∧ w = u' ++ v) ∨ ∃ v', Step ps v v' ∧ w = u ++ v' := by
  generalize hx : u ++ v = x at h
  obtain ⟨hp, before, after⟩ := h
  rename_i p
  rcases exists_of_append_eq_append_cons hx with ⟨mid, rfl, rfl⟩ | ⟨mid, rfl, rfl⟩
  · exact Or.inl ⟨before ++ p.rhs ++ mid, Step.mk hp before mid, (List.append_assoc ..).symm⟩
  · refine Or.inr ⟨mid ++ p.rhs ++ after, Step.mk hp mid after, ?_⟩
    simp only [List.append_assoc]

namespace Derives

/-- A derivation from two sequences in a row is two derivations side by side. -/
theorem split {u v w : List Name} (h : Derives ps (u ++ v) w) :
    ∃ u' v', w = u' ++ v' ∧ Derives ps u u' ∧ Derives ps v v' := by
  induction h with
  | refl => exact ⟨u, v, rfl, refl u, refl v⟩
  | tail _ step ih =>
    obtain ⟨u', v', rfl, hu, hv⟩ := ih
    rcases step.split with ⟨u'', hs, rfl⟩ | ⟨v'', hs, rfl⟩
    · exact ⟨u'', v', rfl, hu.tail hs, hv⟩
    · exact ⟨u', v'', rfl, hu, hv.tail hs⟩

/-- Where no name is a left-hand side, there is nothing to derive. -/
theorem eq_of_forall_ne {u w : List Name} (h : Derives ps u w)
    (hu : ∀ p ∈ ps, p.lhs ∉ u) : w = u := by
  induction h with
  | refl => rfl
  | tail _ step ih =>
    subst ih
    obtain ⟨hp, before, after⟩ := step
    exact absurd (List.mem_append_right before List.mem_cons_self) (hu _ hp)

/-- A word derives nothing but itself. -/
theorem eq_of_isWord {u w : List Name} (h : Derives ps u w) (hc : Checked c ps)
    (hu : c.IsWord u) : w = u :=
  h.eq_of_forall_ne fun _ hp hl => hc.lhs_notMem hp (hu _ hl)

/-- A word at the beginning of a sequence stays at its beginning. -/
theorem of_isWord_append {u v w : List Name} (h : Derives ps (u ++ v) w) (hc : Checked c ps)
    (hu : c.IsWord u) : ∃ x, w = u ++ x ∧ Derives ps v x := by
  obtain ⟨u', x, rfl, hu', hx⟩ := h.split
  rw [hu'.eq_of_isWord hc hu]
  exact ⟨x, rfl, hx⟩

end Derives

/-- A step from one name leads to one of its right-hand sides. -/
theorem Step.mem_rhssOf {n : Name} {u : List Name} (h : Step ps [n] u) : u ∈ rhssOf ps n := by
  generalize hn : [n] = x at h
  obtain ⟨hp, before, after⟩ := h
  rename_i p
  obtain ⟨rfl, hcons⟩ | ⟨before, rfl, hnil⟩ := List.cons_eq_append_iff.1 hn
  · obtain ⟨rfl, rfl⟩ := List.cons.inj hcons
    rw [List.nil_append, List.append_nil]
    exact Lookahead.mem_rhssOf.2 hp
  · simp at hnil

/-! ## 3. Where a name comes from -/

/-- Where an occurrence of a name, between `before` and `after` in the result of a step, was in the
sequence `u` that the step started from. -/
inductive Origin (ps : List Production) (u before : List Name) (n : Name) (after : List Name) :
    Prop
  /-- It stood in front of the place that was replaced. -/
  | front {p : Production} (hp : p ∈ ps) (mid rest : List Name)
      (hu : u = before ++ n :: (mid ++ p.lhs :: rest)) (ha : after = mid ++ p.rhs ++ rest)
  /-- It was written by the step. -/
  | inside {p : Production} (hp : p ∈ ps) (left mid right rest : List Name)
      (hu : u = left ++ p.lhs :: rest) (hr : p.rhs = mid ++ n :: right) (hb : before = left ++ mid)
      (ha : after = right ++ rest)
  /-- It stood behind the place that was replaced. -/
  | behind {p : Production} (hp : p ∈ ps) (left mid : List Name)
      (hu : u = left ++ p.lhs :: (mid ++ n :: after)) (hb : before = left ++ p.rhs ++ mid)

/-- Every name in the result of a step has one of the three origins. -/
theorem Step.origin {u before after : List Name} {n : Name}
    (h : Step ps u (before ++ n :: after)) : Origin ps u before n after := by
  generalize hx : before ++ n :: after = x at h
  obtain ⟨hp, left, rest⟩ := h
  rename_i p
  rcases exists_of_append_eq_append_cons hx.symm with ⟨mid, hm, ha⟩ | ⟨mid, hr, hb⟩
  · rcases exists_of_append_eq_append_cons hm with ⟨mid', hl, hm'⟩ | ⟨mid', hr, hb⟩
    · refine .front hp mid' rest ?_ ?_
      · rw [hl, List.append_assoc, List.cons_append]
      · rw [ha, hm']
    · exact .inside hp left mid' mid rest rfl hr hb ha
  · refine .behind hp left mid ?_ hb
    rw [hr]

end Lookahead
