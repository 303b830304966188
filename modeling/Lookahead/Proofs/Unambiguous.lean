import Lookahead.Proofs.Director

/-!
# LL(1) grammars are unambiguous

A leftmost derivation is a list of alternatives, so a word has one leftmost derivation if the lists
that lead to it are equal.  Two such lists are compared from the front.  As long as they agree, they
lead to one sentential form, and the next step of both works at its leftmost non-terminal
(`LeftStep.exists_place`).  What stands in front of that place is finished, so both still have to
lead to the same rest of the word, and the symbol ahead of this rest is in the director sets of both
alternatives.  In an LL(1) grammar they are the same alternative.

The comparison itself does not look at any table.  It needs that the symbol ahead determines the
alternative, that is, a predictive grammar (`Grammar.IsPredictive.isUnambiguous`), and an LL(1)
grammar is one (`Grammar.WellFormed.isPredictive`).
-/

namespace Lookahead

variable {c : Catalog} {ps : List Production}

/-! ## 1. Two steps from one sentential form -/

/-- Two leftmost steps from one sequence work at one place. -/
theorem LeftStep.exists_place (h : Checked c ps) {u v v' : List Name} {a b : Alternative}
    (ha : LeftStep c ps u a v) (hb : LeftStep c ps u b v') :
    ∃ before after, c.IsWord before ∧ u = before ++ a.lhs :: after ∧
      a ∈ alternativesOf ps a.lhs ∧ b ∈ alternativesOf ps a.lhs ∧
      v = before ++ (a.rhs ++ after) ∧ v' = before ++ (b.rhs ++ after) := by
  generalize hu : u = u' at hb
  obtain ⟨ha, hw, after⟩ := ha
  obtain ⟨hb, hw', after'⟩ := hb
  rename_i before before'
  have hna : a.lhs ∉ c.terminals := h.lhs_notMem (mem_of_mem_alternativesOf ha)
  have hnb : b.lhs ∉ c.terminals := h.lhs_notMem (mem_of_mem_alternativesOf hb)
  obtain ⟨rfl, hl, rfl⟩ := eq_of_isWord_of_append_cons hw hw' hna hnb hu
  refine ⟨before, after, hw, hu.symm, ha, ?_, ?_, ?_⟩
  · rw [hl]
    exact hb
  · rw [List.append_assoc]
  · rw [List.append_assoc]

namespace Grammar

variable {g : Grammar}

/-- Whether every word has at most one leftmost derivation from the start symbol. -/
def IsUnambiguous (g : Grammar) : Prop :=
  ∀ (s : Name) (w : List Name) (as bs : List Alternative),
    g.catalog.start = some s → g.catalog.IsWord w →
    LeftDerives g.catalog g.productions [s] as w →
    LeftDerives g.catalog g.productions [s] bs w → as = bs

/-! ## 2. Predictive grammars -/

/-- In a predictive grammar, a word has one leftmost derivation from each sentential form. -/
theorem IsPredictive.eq_of_leftDerives (hp : g.IsPredictive)
    (h : Checked g.catalog g.productions) {s : Name} (hs : g.catalog.start = some s)
    {u w : List Name} {as bs : List Alternative} (hw : g.catalog.IsWord w)
    (hu : ∃ cs, LeftDerives g.catalog g.productions [s] cs u)
    (ha : LeftDerives g.catalog g.productions u as w)
    (hb : LeftDerives g.catalog g.productions u bs w) : as = bs := by
  induction ha generalizing bs with
  | nil u => exact (hb.eq_nil_of_isWord h hw).symm
  | @cons u v w a as stepa resta ih =>
    cases hb with
    | nil _ => exact (LeftDerives.cons stepa resta).eq_nil_of_isWord h hw
    | @cons _ v' _ b bs stepb restb =>
      obtain ⟨before, after, hbefore, rfl, ha, hb, rfl, rfl⟩ := stepa.exists_place h stepb
      obtain ⟨cs, hcs⟩ := hu
      -- both alternatives have to lead to the rest of the word
      obtain ⟨x, rfl, hxa⟩ := resta.derives.of_isWord_append h hbefore
      obtain ⟨y, hxy, hxb⟩ := restb.derives.of_isWord_append h hbefore
      obtain rfl := List.append_cancel_left hxy
      have hx : g.catalog.IsWord x := hw.of_append.2
      obtain rfl : a = b :=
        hp s before after cs a.lhs a b x x hs hcs hbefore ha hb hxa hx hxb hx rfl
      have hv : LeftDerives g.catalog g.productions [s] (cs ++ [a]) (before ++ (a.rhs ++ after)) :=
        hcs.trans (.cons stepa (.nil _))
      rw [ih hw ⟨_, hv⟩ restb]

theorem IsPredictive.isUnambiguous (hp : g.IsPredictive)
    (h : Checked g.catalog g.productions) : g.IsUnambiguous :=
  fun s _ _ _ hs hw ha hb => hp.eq_of_leftDerives h hs hw ⟨[], .nil [s]⟩ ha hb

/-! ## 3. LL(1) grammars -/

/-- **The LL(1) verdict is sound.**  In a constructed grammar, whenever an alternative is applied to
the leftmost non-terminal of a sentential form and leads to a word, the symbol ahead is in the
director set that is stored for the alternative.  If the grammar is found to be LL(1), every word
therefore has at most one leftmost derivation. -/
theorem isUnambiguous_of_isLL1 (h : g.IsConstructed) :
    ∃ s, g.catalog.start = some s ∧
      (∀ (before after : List Name) (cs : List Alternative) (a : Alternative) (x : List Name),
        LeftDerives g.catalog g.productions [s] cs (before ++ a.lhs :: after) →
        g.catalog.IsWord before → a ∈ alternativesOf g.productions a.lhs →
        Derives g.productions (a.rhs ++ after) x → g.catalog.IsWord x →
        ∃ row D, g.directorSets a.lhs = .ok row ∧ (a, D) ∈ row ∧ lookahead x ∈ D) ∧
      (g.isLL1 = true → g.IsUnambiguous) := by
  have hg := h.wellFormed
  obtain ⟨s, hs⟩ := hg.valid.exists_start hg.isFrozen
  refine ⟨s, hs, ?_, ?_⟩
  · intro before after cs a x hd _ ha hx hw
    obtain ⟨row, hrow, hmem⟩ := hg.exists_directorSets ha
    exact ⟨row, _, hrow, hmem, hg.lookahead_mem_directorOf hs hd.derives ha hx hw⟩
  · intro hll
    exact (hg.isPredictive hll).isUnambiguous hg.checked

/-- A repetition, ended by the empty alternative: the single letter has one leftmost derivation. -/
theorem eq_of_leftDerives_repetition :
    ∃ g, plain ["a"] ["S"] [⟨"S", ["a", "S"]⟩, ⟨"S", []⟩] (some "S") = .ok g ∧ g.isLL1 = true ∧
      LeftDerives g.catalog g.productions ["S"] [⟨"S", 0, ["a", "S"]⟩, ⟨"S", 1, []⟩] ["a"] ∧
      ∀ as, LeftDerives g.catalog g.productions ["S"] as ["a"] →
        as = [⟨"S", 0, ["a", "S"]⟩, ⟨"S", 1, []⟩] := by
  have hg : plain ["a"] ["S"] [⟨"S", ["a", "S"]⟩, ⟨"S", []⟩] (some "S") =
      .ok (analyse (.frozen ["a"] ["S"] (some "S")) [⟨"S", ["a", "S"]⟩, ⟨"S", []⟩]) := rfl
  have hll : (analyse (.frozen ["a"] ["S"] (some "S"))
      [⟨"S", ["a", "S"]⟩, ⟨"S", []⟩]).isLL1 = true := by decide +kernel
  have hd : LeftDerives (.frozen ["a"] ["S"] (some "S")) [⟨"S", ["a", "S"]⟩, ⟨"S", []⟩] ["S"]
      [⟨"S", 0, ["a", "S"]⟩, ⟨"S", 1, []⟩] ["a"] :=
    .cons (@LeftStep.mk _ _ ⟨"S", 0, ["a", "S"]⟩ (by decide) [] (by simp [Catalog.IsWord]) [])
      (.cons (@LeftStep.mk _ _ ⟨"S", 1, []⟩ (by decide) ["a"] (by simp [Catalog.IsWord]) [])
        (.nil _))
  refine ⟨_, hg, hll, hd, fun as has => ?_⟩
  obtain ⟨s, -, -, hunique⟩ := isUnambiguous_of_isLL1 ⟨_, _, _, _, Or.inl hg⟩
  exact hunique hll "S" ["a"] as _ rfl (by simp [Catalog.IsWord, analyse]) has hd

end Grammar

end Lookahead
