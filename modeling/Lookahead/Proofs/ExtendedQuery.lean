import Lookahead.Proofs.Construction
import Lookahead.Proofs.Query
import Lookahead.Proofs.StructuralFirst

/-!
# Questions about extended sequences

A question about an extended sequence is answered by the structure of the sequence.  One could as
well lower the sequence to productions of a new non-terminal `q`, construct a grammar with these
productions, and ask it about `q`.

## 1. More productions

The new productions belong to `q` and to invented names, none of which is declared in the grammar
that there was.  A derivation that begins with declared names never meets one of them, so what is
found out about declared names stays as it was (`Grammar.WellFormed.front_of_append`).

## 2. Two answers

The grammar with the new productions can be constructed (`Grammar.WellFormed.exists_plain_lowered`),
and in its tables `q` has the front that the structure of the sequence gives.  The leaves of the
sequence are declared names, so the structure gives the same in the tables that there were
(`Grammar.WellFormed.front_lowered`).
-/

namespace Lookahead

/-! ## 1. More productions -/

/-- Productions of names that are not declared do not take part in a derivation from declared
names. -/
theorem Checked.derives_append_iff {c : Catalog} {ps qs : List Production} (h : Checked c ps)
    (hqs : ∀ p ∈ qs, c.contains p.lhs = false) {u v : List Name}
    (hu : ∀ n ∈ u, c.contains n = true) : Derives (ps ++ qs) u v ↔ Derives ps u v := by
  refine ⟨fun hd => ?_, fun hd => hd.mono (List.subset_append_left ps qs)⟩
  induction hd with
  | refl => exact .refl u
  | tail _ step ih =>
    have hdeclared := h.declared_of_derives ih fun n hn => Catalog.contains_iff.1 (hu n hn)
    obtain @⟨p, hp, before, after⟩ := step
    refine ih.tail (.mk ((List.mem_append.1 hp).resolve_right fun hq => ?_) before after)
    have hl := Catalog.contains_iff.2 (hdeclared p.lhs (by simp))
    rw [hqs p hq] at hl
    exact Bool.false_ne_true hl

namespace Grammar

variable {g g' : Grammar}

theorem notMem_terminals_of_undeclared {n : Name} (hn : g.catalog.contains n = false) :
    n ∉ g.catalog.terminals := fun hmem => by
  rw [Catalog.contains_iff.2 (Or.inl hmem)] at hn
  cases hn

/-- A name that is not declared has no productions. -/
theorem WellFormed.rhssOf_of_undeclared (h : g.WellFormed) {n : Name}
    (hn : g.catalog.contains n = false) : rhssOf g.productions n = [] := by
  refine rhssOf_eq_nil fun p hp => ?_
  rintro rfl
  rw [Catalog.contains_iff.2 (Or.inr (h.checked.lhs_mem hp))] at hn
  cases hn

/-- New non-terminals, and productions over the old and the new names, can be added to a grammar. -/
theorem WellFormed.exists_plain_append (h : g.WellFormed) (ns : List Name) (qs : List Production)
    (hns : ∀ n ∈ ns, n ∉ g.catalog.terminals) (hend : endMarker ∉ ns)
    (hqs : ∀ p ∈ qs, p.lhs ∈ g.catalog.nonterminals ++ ns ∧
      ∀ n ∈ p.rhs, n ∈ g.catalog.terminals ∨ n ∈ g.catalog.nonterminals ++ ns) :
    ∃ g', plain g.catalog.terminals (g.catalog.nonterminals ++ ns) (g.productions ++ qs)
        g.catalog.start = .ok g' ∧
      g'.catalog.terminals = g.catalog.terminals ∧ g'.productions = g.productions ++ qs := by
  obtain ⟨s, hs⟩ := h.valid.exists_start h.isFrozen
  have hok : ∃ g', plain g.catalog.terminals (g.catalog.nonterminals ++ ns) (g.productions ++ qs)
      g.catalog.start = .ok g' := by
    refine exists_plain_iff.2 ⟨⟨fun n hn hn' => ?_, h.valid.endMarker_notMem_terminals,
      fun he => ?_, s, List.mem_append_left ns (h.valid.start_mem s hs), hs⟩, fun p hp => ?_⟩
    · rcases List.mem_append.1 hn' with hn' | hn'
      · exact h.valid.disjoint n hn hn'
      · exact hns n hn' hn
    · exact (List.mem_append.1 he).elim h.valid.endMarker_notMem_nonterminals hend
    · rcases List.mem_append.1 hp with hp | hp
      · obtain ⟨hl, hr⟩ := h.declares p hp
        exact ⟨List.mem_append_left ns hl,
          fun n hn => (hr n hn).imp_right (List.mem_append_left ns)⟩
      · exact hqs p hp
  obtain ⟨g', hg'⟩ := hok
  refine ⟨g', hg', ?_⟩
  rw [eq_analyse_of_plain hg']
  exact ⟨firstOccurrences_eq_self h.valid.nodup_terminals, rfl⟩

theorem WellFormed.firstSolved (h : g.WellFormed) :
    FirstSolved g.catalog.terminals g.productions g.first g.nullable := by
  rw [h.tables]
  exact firstSolved_firstTable h.checked

/-- What is known of declared names stays as it was. -/
theorem WellFormed.front_of_append (h : g.WellFormed) (h' : g'.WellFormed)
    (hts : g'.catalog.terminals = g.catalog.terminals) {qs : List Production}
    (hps : g'.productions = g.productions ++ qs)
    (hqs : ∀ p ∈ qs, g.catalog.contains p.lhs = false) {n : Name}
    (hn : g.catalog.contains n = true) :
    front g'.first g'.nullable n = front g.first g.nullable n := by
  have hderives : ∀ v, Derives g'.productions [n] v ↔ Derives g.productions [n] v := fun v => by
    rw [hps]
    exact h.checked.derives_append_iff hqs (by simpa using hn)
  rw [← firstOfSequence_singleton, ← firstOfSequence_singleton]
  refine Front.ext (fun t => ?_) (Bool.eq_iff_iff.2 ?_)
  · simp only [h.mem_firstOfSequence_iff, h'.mem_firstOfSequence_iff, hts, hderives]
  · rw [h.firstOfSequence_snd_iff, h'.firstOfSequence_snd_iff, hderives]

/-! ## 2. Two answers -/

/-- A balanced sequence with an undeclared mark is answered by its structure, if its names that are
no marks are declared. -/
theorem firstOf_of_readsExtended {u : List Name} {e : Expr} (hu : g.readsExtended u = true)
    (he : Expr.ofNames u none = .ok e)
    (hd : ∀ n ∈ u, isMark n = false → g.catalog.contains n = true) :
    g.firstOf u = .ok (Expr.first g.first g.nullable e) := by
  have hall : g.catalog.requireAll (u.filter (! isMark ·)) = .ok (u.filter (! isMark ·)) := by
    refine Catalog.requireAll_of_declared fun n hn => ?_
    rw [List.mem_filter] at hn
    exact hd n hn.1 (by simpa using hn.2)
  rw [firstOf, hu, he, hall]
  rfl

/-- Where no mark is declared, every mark makes a sequence an extended one. -/
theorem readsExtended_of_marks (hmarks : ∀ n, g.catalog.contains n = true → isMark n = false)
    {u : List Name} (hu : hasMarks u = true) : g.readsExtended u = true := by
  obtain ⟨n, hn, hmark⟩ := List.any_eq_true.1 hu
  refine List.any_eq_true.2 ⟨n, hn, ?_⟩
  cases hc : g.catalog.contains n with
  | false => simp [hmark]
  | true => simp [hmarks n hc] at hmark

section Added

variable {q : Name} {taken : List Name} {e : List (List Atom)}

/-- If the declared names are taken, then neither an invented name nor the new one is declared. -/
theorem contains_of_mem_fresh (hq : g.catalog.contains q = false)
    (ht : ∀ n, g.catalog.contains n = true → n ∈ taken) :
    ∀ n ∈ q :: (Expr.lowerInto q (.ofTaken taken) e).1.fresh, g.catalog.contains n = false := by
  have hx := Expr.spells_lowerInto q (.ofTaken taken) e
  refine List.forall_mem_cons.2 ⟨hq, fun n hn => Bool.eq_false_iff.2 fun hc => ?_⟩
  exact hx.notMem n hn (ht n hc)

/-- So the added productions are none of declared names. -/
theorem contains_lhs_lowered (hq : g.catalog.contains q = false)
    (ht : ∀ n, g.catalog.contains n = true → n ∈ taken) :
    ∀ p ∈ ownFirst q (Expr.lowerInto q (.ofTaken taken) e).1.productions,
      g.catalog.contains p.lhs = false := by
  intro p hp
  have hx := Expr.spells_lowerInto q (.ofTaken taken) e
  refine contains_of_mem_fresh (e := e) hq ht p.lhs (List.mem_cons.2 ?_)
  refine (hx.lhs_mem p (mem_ownFirst.1 hp)).imp_left fun hl => ?_
  obtain ⟨_, -, heq⟩ := List.mem_map.1 hl
  exact heq.symm

/-- An expression over declared names can be added to a grammar under a new name. -/
theorem WellFormed.exists_plain_lowered (h : g.WellFormed) (hq : g.catalog.contains q = false)
    (hend : q ≠ endMarker) (ht : ∀ n, g.catalog.contains n = true → n ∈ taken)
    (he : ∀ n ∈ namesOf (Expr.leaves e), g.catalog.contains n = true) :
    ∃ g', plain g.catalog.terminals
        (g.catalog.nonterminals ++ q :: (Expr.lowerInto q (.ofTaken taken) e).1.fresh)
        (g.productions ++ ownFirst q (Expr.lowerInto q (.ofTaken taken) e).1.productions)
        g.catalog.start = .ok g' ∧
      g'.catalog.terminals = g.catalog.terminals ∧
      g'.productions =
        g.productions ++ ownFirst q (Expr.lowerInto q (.ofTaken taken) e).1.productions := by
  have hx := Expr.spells_lowerInto q (.ofTaken taken) e
  have hdeclared := (hx.declared_iff (Expr.names_lowerInto ..) g.catalog.terminals
    fun n hn => List.mem_append_right g.catalog.nonterminals (List.mem_cons_of_mem q hn)).2
    ⟨by simp, fun n hn => (Catalog.contains_iff.1 (he n hn)).imp_right (List.mem_append_left _)⟩
  refine h.exists_plain_append _ _ (fun n hn => ?_) ?_ fun p hp => hdeclared p (mem_ownFirst.1 hp)
  · exact notMem_terminals_of_undeclared (contains_of_mem_fresh hq ht n hn)
  · simp [hend.symm, hx.endMarker_notMem]

/-- The new name has the front that the structure of the expression gives. -/
theorem WellFormed.front_lowered (h : g.WellFormed) (hq : g.catalog.contains q = false)
    (hqt : q ∈ taken) (ht : ∀ n, g.catalog.contains n = true → n ∈ taken)
    (hunknown : .unknown ∉ Expr.leaves e)
    (he : ∀ n ∈ namesOf (Expr.leaves e), g.catalog.contains n = true) (h' : g'.WellFormed)
    (hts : g'.catalog.terminals = g.catalog.terminals)
    (hps : g'.productions =
      g.productions ++ ownFirst q (Expr.lowerInto q (.ofTaken taken) e).1.productions) :
    front g'.first g'.nullable q = Expr.first g.first g.nullable e := by
  have hrhss : ∀ n, g.catalog.contains n = false → rhssOf g'.productions n =
      rhssOf (Expr.lowerInto q (.ofTaken taken) e).1.productions n := fun n hn => by
    rw [hps, rhssOf_append, rhssOf_ownFirst, h.rhssOf_of_undeclared hn, List.nil_append]
  have hembedded : (Expr.lowerInto q (.ofTaken taken) e).1.EmbeddedIn g'.catalog.terminals
      g'.productions := by
    intro n hn
    have hnew := contains_of_mem_fresh hq ht n (List.mem_cons_of_mem q hn)
    exact ⟨hts ▸ notMem_terminals_of_undeclared hnew, hrhss n hnew⟩
  have hsolved := h'.firstSolved
  calc front g'.first g'.nullable q
      = firstOfChoice g'.first g'.nullable (rhssOf g'.productions q) :=
        hsolved.front_eq q (hts ▸ notMem_terminals_of_undeclared hq)
    _ = Expr.first g'.first g'.nullable e := by
        rw [hrhss q hq, Expr.firstOfChoice_lowerInto hsolved q _ e hqt hunknown hembedded]
    _ = Expr.first g.first g.nullable e := Expr.first_congr e fun n hn =>
        h.front_of_append h' hts hps (contains_lhs_lowered hq ht) (he n hn)

end Added

/-- **Two readings of extended notation.**  In a constructed grammar that declares no mark, take a
balanced sequence of marks and declared names, and a name that is not declared.  The sequence can be
lowered to productions of this name, with all names of the grammar taken, and the grammar with these
productions can be constructed.  What it finds out about the new name is what the question about the
sequence is answered with. -/
theorem firstOf_eq_front_lowered (h : g.IsConstructed)
    (hmarks : ∀ n, g.catalog.contains n = true → isMark n = false)
    {u : List Name} (hu : hasMarks u = true) (hb : Balanced u)
    (hd : ∀ n ∈ u, isMark n = false → g.catalog.contains n = true)
    {q : Name} (hq : g.catalog.contains q = false) (hend : q ≠ endMarker)
    {taken : List Name} (hqt : q ∈ taken) (ht : ∀ n, g.catalog.contains n = true → n ∈ taken) :
    ∃ lowered fresh g', lowerProductions [⟨q, u⟩] taken = .ok (lowered, fresh) ∧
      plain g.catalog.terminals (g.catalog.nonterminals ++ q :: fresh)
        (g.productions ++ lowered) g.catalog.start = .ok g' ∧
      g.firstOf u = .ok (g'.first.get q, q ∈ g'.nullable) := by
  have hg := h.wellFormed
  obtain ⟨e, he, -, hleaves⟩ := hb.exists_ofNames
  have hdeclared : ∀ n ∈ namesOf (Expr.leaves e), g.catalog.contains n = true := by
    intro n hn
    rw [hleaves, mem_namesOf_plainLeaves] at hn
    exact hd n hn.1 hn.2
  obtain ⟨g', hg', hts, hps⟩ := hg.exists_plain_lowered hq hend ht hdeclared
  have hfront := hg.front_lowered hq hqt ht (by simp [hleaves, plainLeaves]) hdeclared
    (wellFormed_of_plain hg') hts hps
  refine ⟨_, _, g', ?_, hg', ?_⟩
  · rw [lowerProductions, lowerProductionsFrom, lowerProduction_of_ofNames _ hu (he _)]
    simp [lowerProductionsFrom, Except.map]
  · rw [firstOf_of_readsExtended (readsExtended_of_marks hmarks hu) (he none) hd, ← hfront]
    rfl

/-- A repetition of something that can be left out, in front of a letter. -/
theorem firstOf_nestedRepetition :
    let ps : List Production := [⟨"S", ["a", "S", "b"]⟩, ⟨"S", []⟩]
    let u : List Name := [(Mark.opening .curly).name, (Mark.opening .square).name, "S",
      (Mark.closing .square).name, Mark.bar.name, "b", (Mark.closing .curly).name, "a"]
    ∃ g, plain ["a", "b"] ["S"] ps (some "S") = .ok g ∧
      ∃ lowered fresh g', lowerProductions [⟨"Q", u⟩] ["Q", "a", "b", "S"] = .ok (lowered, fresh) ∧
        plain ["a", "b"] ("S" :: "Q" :: fresh) (ps ++ lowered) (some "S") = .ok g' ∧
        g.firstOf u = .ok (g'.first.get "Q", "Q" ∈ g'.nullable) := by
  intro ps u
  have hg : plain ["a", "b"] ["S"] ps (some "S") =
      .ok (analyse (.frozen ["a", "b"] ["S"] (some "S")) ps) := rfl
  have hmem : ∀ n, (analyse (.frozen ["a", "b"] ["S"] (some "S")) ps).catalog.contains n = true →
      n ∈ (["a", "b", "S"] : List Name) := fun n hn => by
    simpa [analyse, or_assoc] using Catalog.contains_iff.1 hn
  refine ⟨_, hg, firstOf_eq_front_lowered ⟨_, _, _, _, Or.inl hg⟩ (fun n hn => ?_) (by decide) ?_
    (by decide) (by decide) (by decide) (by decide) fun n hn => List.mem_cons_of_mem _ (hmem n hn)⟩
  · exact (by decide : ∀ n ∈ (["a", "b", "S"] : List Name), isMark n = false) n (hmem n hn)
  · exact (exists_ofNames_iff none).1 ⟨_, rfl⟩

end Grammar

end Lookahead
