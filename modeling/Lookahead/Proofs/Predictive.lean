import Lookahead.Proofs.Director

/-!
# The LL(1) verdict on reduced grammars

A conflict is a common name of two director sets.  In a grammar with useless symbols it may come to
nothing: the alternatives may never be met, or lead to no word.  In a reduced grammar every conflict
is met by a parser.  This module finds the situation.

## 1. Finishing a sentential form

In a reduced grammar every declared name derives a word, so every sentential form can be finished
(`Grammar.IsReduced.exists_word`).

## 2. A situation for a non-terminal

A non-terminal is reached by leftmost derivations, and something stands behind it that can be
finished.  If a given name follows the non-terminal, there is a derivation behind which that name is
seen, whether it is a terminal or the end marker (`Grammar.IsReduced.exists_hasContext_of_follows`).

## 3. A situation for a conflict

A name in the director set of an alternative can be seen in front of the right-hand side, or else
the right-hand side vanishes and the name is seen behind it.  One situation serves both
alternatives: one in which the common name is seen behind the non-terminal if that is possible at
all, and any other one if not (`Grammar.IsReduced.exists_hasContext`).
-/

namespace Lookahead

/-! ## 1. Finishing a sentential form -/

namespace Grammar

variable {g : Grammar}

/-- Sentential forms of the start symbol consist of declared names. -/
theorem WellFormed.declared_of_start (h : g.WellFormed) {s : Name} (hs : g.catalog.start = some s)
    {u : List Name} (hd : Derives g.productions [s] u) :
    ∀ n ∈ u, n ∈ g.catalog.terminals ∨ n ∈ g.catalog.nonterminals := by
  refine h.checked.declared_of_derives hd fun n hn => ?_
  rw [List.mem_singleton.1 hn]
  exact Or.inr (h.valid.start_mem s hs)

/-- In a reduced grammar, every sequence of declared names derives a word. -/
theorem IsReduced.exists_word (hr : g.IsReduced) {u : List Name}
    (hu : ∀ n ∈ u, n ∈ g.catalog.terminals ∨ n ∈ g.catalog.nonterminals) :
    ∃ w, g.catalog.IsWord w ∧ Derives g.productions u w := by
  refine exists_word_of_forall_mem fun n hn => ?_
  rcases hu n hn with ht | hnt
  · exact ⟨[n], Catalog.isWord_cons.2 ⟨ht, g.catalog.isWord_nil⟩, .refl [n]⟩
  · exact (hr n hnt).2

/-! ## 2. A situation for a non-terminal -/

/-- Whether a leftmost derivation comes to the non-terminal in a place where the word can be derived
from what stands behind it. -/
def HasContext (g : Grammar) (n : Name) (z : List Name) : Prop :=
  ∃ s before after as, g.catalog.start = some s ∧
    LeftDerives g.catalog g.productions [s] as (before ++ n :: after) ∧
    g.catalog.IsWord before ∧ Derives g.productions after z ∧ g.catalog.IsWord z

/-- In a reduced grammar, what stands behind an occurrence of a name can be had behind a leftmost
one. -/
theorem IsReduced.hasContext (h : g.WellFormed) (hr : g.IsReduced) {s n : Name}
    {before after z : List Name} (hs : g.catalog.start = some s)
    (hd : Derives g.productions [s] (before ++ n :: after)) (hz : Derives g.productions after z)
    (hw : g.catalog.IsWord z) : g.HasContext n z := by
  obtain ⟨as, w, after', has, hw', ha⟩ := hd.exists_leftContext (c := g.catalog) fun p hp m hm => by
    refine hr.exists_word fun k hk => ?_
    rw [List.mem_singleton.1 hk]
    exact h.checked.rhs_mem hp hm
  exact ⟨s, w, after', as, hs, has, hw', ha.trans hz, hw⟩

/-- In a reduced grammar, every declared non-terminal is met by a leftmost derivation. -/
theorem IsReduced.exists_hasContext (h : g.WellFormed) (hr : g.IsReduced) {n : Name}
    (hn : n ∈ g.catalog.nonterminals) : ∃ z, g.HasContext n z := by
  obtain ⟨s, before, after, hs, hd⟩ := (hr n hn).1
  have hdeclared := h.declared_of_start hs hd
  obtain ⟨z, hz, hdz⟩ := hr.exists_word fun m hm =>
    hdeclared m (List.mem_append_right before (List.mem_cons_of_mem n hm))
  exact ⟨z, hr.hasContext h hs hd hdz hz⟩

/-- In a reduced grammar, a name that follows a non-terminal is seen behind it. -/
theorem IsReduced.exists_hasContext_of_follows (h : g.WellFormed) (hr : g.IsReduced) {n t : Name}
    (hf : Follows g.catalog g.productions n t) : ∃ z, g.HasContext n z ∧ lookahead z = t := by
  cases hf with
  | @terminal _ a u v ht ha hd =>
    -- the sentential form is put into a place that the start symbol leads to
    obtain ⟨s, before, after, hs, hda⟩ := (hr a ha).1
    have hform : Derives g.productions [s] (before ++ u ++ n :: (t :: (v ++ after))) := by
      have hin := (hd.append_right after).append_left before
      simp only [List.append_assoc, List.cons_append, List.nil_append] at hin ⊢
      exact hda.trans hin
    have hdeclared := h.declared_of_start hs hform
    obtain ⟨z, hz, hdz⟩ := hr.exists_word (u := v ++ after) fun m hm =>
      hdeclared m (List.mem_append_right _ (List.mem_cons_of_mem n (List.mem_cons_of_mem t hm)))
    refine ⟨t :: z, hr.hasContext h hs hform (hdz.append_left [t]) ?_, rfl⟩
    exact Catalog.isWord_cons.2 ⟨ht, hz⟩
  | endMarker hs hd =>
    exact ⟨[], hr.hasContext h hs hd (.refl []) g.catalog.isWord_nil, rfl⟩

/-! ## 3. A situation for a conflict -/

/-- A name in the director set of an alternative is seen in front of the right-hand side, if what
stands behind it is such that the name is seen there whenever it is in FOLLOW of the left-hand
side. -/
theorem IsReduced.exists_word_of_mem_directorOf (h : g.WellFormed) (hr : g.IsReduced)
    {a : Alternative} (ha : a ∈ alternativesOf g.productions a.lhs) {t : Name}
    (ht : t ∈ g.directorOf a) {after z : List Name} (hd : Derives g.productions after z)
    (hz : g.catalog.IsWord z) (hfollow : t ∈ g.follow.get a.lhs → lookahead z = t) :
    ∃ x, g.catalog.IsWord x ∧ Derives g.productions (a.rhs ++ after) x ∧ lookahead x = t := by
  rw [directorOf, directorSet_eq_ahead, mem_ahead] at ht
  rcases ht with ht | ⟨hnull, ht⟩
  · obtain ⟨m, -, hm⟩ := exists_mem_of_mem_firstOfSequence ht
    have hterm : t ∈ g.catalog.terminals := h.firstBounded.mem_terminals m t hm
    obtain ⟨v, hv⟩ := h.firstSound.derives_of_mem_firstOfSequence ht
    have hdeclared := h.checked.declared_of_derives hv fun m hm =>
      h.checked.rhs_mem (mem_of_mem_alternativesOf ha) hm
    obtain ⟨w, hw, hdw⟩ := hr.exists_word fun m hm => hdeclared m (List.mem_cons_of_mem t hm)
    refine ⟨t :: (w ++ z), Catalog.isWord_cons.2 ⟨hterm, hw.append hz⟩, ?_, rfl⟩
    exact (hv.trans (hdw.append_left [t])).append hd
  · refine ⟨z, hz, ?_, hfollow ht⟩
    exact (derives_nil_of_forall_mem fun n hn => h.firstSound.derives_nil n (hnull n hn)).append hd

/-- Whether a leftmost derivation comes to the non-terminal in a place where both alternatives can
still lead to a word and the name is seen ahead of either of the two words. -/
def HasDilemma (g : Grammar) (n : Name) (a b : Alternative) (t : Name) : Prop :=
  ∃ s before after as x y, g.catalog.start = some s ∧
    LeftDerives g.catalog g.productions [s] as (before ++ n :: after) ∧
    g.catalog.IsWord before ∧
    a ∈ alternativesOf g.productions n ∧ b ∈ alternativesOf g.productions n ∧
    Derives g.productions (a.rhs ++ after) x ∧ g.catalog.IsWord x ∧ lookahead x = t ∧
    Derives g.productions (b.rhs ++ after) y ∧ g.catalog.IsWord y ∧ lookahead y = t

/-- In a predictive grammar no two alternatives are in a dilemma. -/
theorem IsPredictive.eq_of_hasDilemma (hp : g.IsPredictive) {n t : Name} {a b : Alternative}
    (h : g.HasDilemma n a b t) : a = b := by
  obtain ⟨s, before, after, as, x, y, hs, hd, hw, ha, hb, hax, hx, hxt, hby, hy, hyt⟩ := h
  exact hp s before after as n a b x y hs hd hw ha hb hax hx hby hy (hxt.trans hyt.symm)

/-- In a reduced grammar, a common name of two director sets is a dilemma. -/
theorem IsReduced.hasDilemma (h : g.WellFormed) (hr : g.IsReduced) {n t : Name}
    {a b : Alternative} (ha : a ∈ alternativesOf g.productions n)
    (hb : b ∈ alternativesOf g.productions n) (hta : t ∈ g.directorOf a)
    (htb : t ∈ g.directorOf b) : g.HasDilemma n a b t := by
  have hn := h.checked.mem_nonterminals_of_alternative ha
  have hcontext : ∃ z, g.HasContext n z ∧ (t ∈ g.follow.get n → lookahead z = t) := by
    by_cases hf : t ∈ g.follow.get n
    · obtain ⟨z, hz, hl⟩ := hr.exists_hasContext_of_follows h (h.followSound n t hf).2
      exact ⟨z, hz, fun _ => hl⟩
    · obtain ⟨z, hz⟩ := hr.exists_hasContext h hn
      exact ⟨z, hz, fun hf' => absurd hf' hf⟩
  obtain ⟨z, ⟨s, before, after, as, hs, hd, hw, hdz, hz⟩, hfollow⟩ := hcontext
  obtain ⟨hla, -⟩ := mem_alternativesOf.1 ha
  obtain ⟨hlb, -⟩ := mem_alternativesOf.1 hb
  obtain ⟨x, hx, hax, hxt⟩ :=
    hr.exists_word_of_mem_directorOf h (hla.symm ▸ ha) hta hdz hz (hla.symm ▸ hfollow)
  obtain ⟨y, hy, hby, hyt⟩ :=
    hr.exists_word_of_mem_directorOf h (hlb.symm ▸ hb) htb hdz hz (hlb.symm ▸ hfollow)
  exact ⟨s, before, after, as, x, y, hs, hd, hw, ha, hb, hax, hx, hxt, hby, hy, hyt⟩

/-- **The LL(1) verdict is exact on reduced grammars.**  A constructed grammar without useless
non-terminals is found to be LL(1) exactly if it is predictive, and every reported conflict is
between two different alternatives and, on each of the names reported for it, a dilemma. -/
theorem isLL1_iff_isPredictive (h : g.IsConstructed) (hr : g.IsReduced) :
    (g.isLL1 = true ↔ g.IsPredictive) ∧
    ∀ d ∈ g.conflicts, d.first ≠ d.second ∧ (∃ t, t ∈ d.overlap) ∧
      ∀ t ∈ d.overlap, g.HasDilemma d.lhs d.first d.second t := by
  have hg := h.wellFormed
  refine ⟨⟨hg.isPredictive, fun hp => ?_⟩, fun d hd => ?_⟩
  · rw [hg.isLL1_iff]
    intro n a ha b hb t hta htb
    exact hp.eq_of_hasDilemma (hr.hasDilemma hg ha hb hta htb)
  · obtain ⟨n, -, a, b, hab, ⟨t, hta, htb⟩, rfl⟩ := hg.mem_conflicts.1 hd
    have ha : a ∈ alternativesOf g.productions n := hab.subset (by simp)
    have hb : b ∈ alternativesOf g.productions n := hab.subset (by simp)
    refine ⟨ne_of_pair_sublist hab, ⟨t, NameSet.mem_inter.2 ⟨hta, htb⟩⟩, fun x hx => ?_⟩
    obtain ⟨hxa, hxb⟩ := NameSet.mem_inter.1 hx
    exact hr.hasDilemma hg ha hb hxa hxb

/-- An option in front of its own first letter: the letter does not say whether it is taken. -/
theorem hasDilemma_option :
    ∃ g, plain ["a"] ["S", "A"] [⟨"S", ["A", "a"]⟩, ⟨"A", ["a"]⟩, ⟨"A", []⟩] (some "S") = .ok g ∧
      g.IsReduced ∧ ¬ g.IsPredictive ∧ g.HasDilemma "A" ⟨"A", 0, ["a"]⟩ ⟨"A", 1, []⟩ "a" := by
  let ps : List Production := [⟨"S", ["A", "a"]⟩, ⟨"A", ["a"]⟩, ⟨"A", []⟩]
  have hg : plain ["a"] ["S", "A"] ps (some "S") =
      .ok (analyse (.frozen ["a"] ["S", "A"] (some "S")) ps) := rfl
  have hS : Derives ps ["S"] ["A", "a"] := .of_mem (p := ⟨"S", ["A", "a"]⟩) (by decide)
  have hA : Derives ps ["A"] [] := .of_mem (p := ⟨"A", []⟩) (by decide)
  have hr : (analyse (.frozen ["a"] ["S", "A"] (some "S")) ps).IsReduced := by
    intro n hn
    rcases List.mem_pair.1 hn with rfl | rfl
    · exact ⟨⟨"S", [], [], rfl, .refl _⟩, ["a"], by simp [Catalog.IsWord, analyse],
        hS.trans (hA.append_right ["a"])⟩
    · exact ⟨⟨"S", [], ["a"], rfl, hS⟩, [], by simp [Catalog.IsWord], hA⟩
  have hd : (⟨"A", ⟨"A", 0, ["a"]⟩, ⟨"A", 1, []⟩, .singleton "a"⟩ : Conflict) ∈
      (analyse (.frozen ["a"] ["S", "A"] (some "S")) ps).conflicts := by decide +kernel
  obtain ⟨hiff, hconflicts⟩ := isLL1_iff_isPredictive ⟨_, _, _, _, Or.inl hg⟩ hr
  refine ⟨_, hg, hr, fun hp => ?_, (hconflicts _ hd).2.2 "a" (by simp)⟩
  exact absurd (hiff.2 hp) (by decide +kernel)

end Grammar

end Lookahead
