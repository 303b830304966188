import Lookahead.Proofs.Interpretation

/-!
# Lowering preserves the language

The rules of an extended grammar mean the least solution of their equations, and the plain
productions that they are lowered to mean what can be derived with them.  For the words in which
neither a rule name nor an invented name is left, the two are the same.

## 1. Everything is derived

What can be derived from each rule name is a valuation too.  Under this valuation, the language of
an expression is contained in what can be derived from the names that stand for it
(`Expr.language_le_derived`).

## 2. The two meanings

So this valuation is closed under the equations, and the least solution is below it
(`meaning_le_derivedValuation`).  In the other direction, the least solution is extended to the
invented names, and then it contains everything that is derived.
-/

namespace Lookahead

open scoped Computability

/-! ## 1. Everything is derived -/

/-- The words over the given names that can be derived from a sequence. -/
def derivedWords (ps : List Production) (T : Name → Prop) (u : List Name) : Language Name :=
  {w | Derives ps u w ∧ ∀ n ∈ w, T n}

section Derived

variable {ps : List Production} {T : Name → Prop} {v : Valuation}

theorem one_le_derivedWords_nil : 1 ≤ derivedWords ps T [] := by
  intro w hw
  obtain rfl : w = [] := hw
  exact ⟨.refl [], fun n hn => absurd hn List.not_mem_nil⟩

theorem singleton_le_derivedWords {n : Name} (hn : T n) : {[n]} ≤ derivedWords ps T [n] := by
  rintro w rfl
  refine ⟨.refl [n], fun m hm => ?_⟩
  rw [List.mem_singleton.1 hm]
  exact hn

theorem derivedWords_mul_le (u w : List Name) :
    derivedWords ps T u * derivedWords ps T w ≤ derivedWords ps T (u ++ w) := by
  rintro _ ⟨x, ⟨hx, hxT⟩, y, ⟨hy, hyT⟩, rfl⟩
  exact ⟨hx.append hy, List.forall_mem_append.2 ⟨hxT, hyT⟩⟩

/-- What is derived from a right-hand side is derived from the left-hand side. -/
theorem derivedWords_rhs_le {lhs : Name} {rhs : List Name} (hp : ⟨lhs, rhs⟩ ∈ ps) :
    derivedWords ps T rhs ≤ derivedWords ps T [lhs] :=
  fun _ ⟨hw, hwT⟩ => ⟨(Derives.of_mem hp).trans hw, hwT⟩

/-- The two productions of a repetition derive all words of the star. -/
theorem kstar_le_derivedWords {X : Language Name} {r : Name} {u : List Name}
    (hX : X ≤ derivedWords ps T u) (hnil : ⟨r, []⟩ ∈ ps) (hcons : ⟨r, u ++ [r]⟩ ∈ ps) :
    X∗ ≤ derivedWords ps T [r] := by
  refine kstar_le_of_mul_le_right (one_le_derivedWords_nil.trans (derivedWords_rhs_le hnil)) ?_
  calc X * derivedWords ps T [r]
      ≤ derivedWords ps T u * derivedWords ps T [r] := mul_le_mul' hX le_rfl
    _ ≤ derivedWords ps T (u ++ [r]) := derivedWords_mul_le u [r]
    _ ≤ derivedWords ps T [r] := derivedWords_rhs_le hcons

theorem Lowered.productions_subset_withSuffix (x : Lowered) (s : Supply) (suffix : Suffix) :
    x.productions ⊆ (x.withSuffix s suffix).1.productions := by
  cases suffix with
  | once => exact List.Subset.refl _
  | optional => exact List.subset_append_left _ _
  | star => exact List.subset_append_left _ _
  | plus => exact List.subset_append_left _ _
  | other word => exact List.Subset.refl _

theorem Suffix.language_le_derivedWords {x : Lowered} {s : Supply} {suffix : Suffix}
    {X : Language Name} (hX : X ≤ derivedWords ps T x.names)
    (hps : (x.withSuffix s suffix).1.productions ⊆ ps) :
    suffix.language X ≤ derivedWords ps T (x.withSuffix s suffix).1.names := by
  cases suffix with
  | once => exact hX
  | optional =>
    rw [Lowered.withSuffix, Lowered.optional, List.append_subset] at hps
    have hnil := hps.2 List.mem_cons_self
    have hsome := hps.2 (List.mem_cons_of_mem _ List.mem_cons_self)
    refine add_le_iff.2 ⟨one_le_derivedWords_nil.trans (derivedWords_rhs_le hnil), ?_⟩
    exact hX.trans (derivedWords_rhs_le hsome)
  | star =>
    rw [Lowered.withSuffix, Lowered.star, List.append_subset] at hps
    exact kstar_le_derivedWords hX (hps.2 List.mem_cons_self)
      (hps.2 (List.mem_cons_of_mem _ List.mem_cons_self))
  | plus =>
    rw [Lowered.withSuffix, Lowered.plus, List.append_subset] at hps
    have hstar := kstar_le_derivedWords hX (hps.2 List.mem_cons_self)
      (hps.2 (List.mem_cons_of_mem _ List.mem_cons_self))
    exact (mul_le_mul' hX hstar).trans (derivedWords_mul_le _ _)
  | other word => exact hX

namespace Expr

mutual

theorem atomLanguage_le_derived (s : Supply) (a : Atom)
    (hps : (lowerAtom s a).1.productions ⊆ ps)
    (hv : ∀ l ∈ atomLeaves a, l.language v ≤ derivedWords ps T (Lowered.ofLeaf l).names) :
    atomLanguage v a ≤ derivedWords ps T (lowerAtom s a).1.names := by
  match a with
  | .leaf l suffix _ =>
    rw [lowerAtom] at hps ⊢
    rw [atomLanguage]
    exact suffix.language_le_derivedWords (hv l (List.mem_singleton.2 rfl)) hps
  | .group [alternative] suffix _ =>
    rw [lowerAtom] at hps ⊢
    rw [atomLeaves, leaves, leaves, List.append_nil] at hv
    rw [atomLanguage, language, language, add_zero]
    have hin := List.Subset.trans (Lowered.productions_subset_withSuffix _ _ suffix) hps
    exact suffix.language_le_derivedWords (sequenceLanguage_le_derived s alternative hin hv) hps
  | .group [] suffix _ =>
    rw [atomLeaves] at hv
    have hin := List.Subset.trans (Lowered.productions_subset_withSuffix _ _ suffix) hps
    exact suffix.language_le_derivedWords (s := s.next .group)
      (language_le_derived _ (s.next .group) [] hin hv) hps
  | .group (alternative :: next :: rest) suffix _ =>
    rw [atomLeaves] at hv
    have hin := List.Subset.trans (Lowered.productions_subset_withSuffix _ _ suffix) hps
    exact suffix.language_le_derivedWords
      (language_le_derived _ _ (alternative :: next :: rest) hin hv) hps

theorem sequenceLanguage_le_derived (s : Supply) (as : List Atom)
    (hps : (lowerSequence s as).1.productions ⊆ ps)
    (hv : ∀ l ∈ sequenceLeaves as, l.language v ≤ derivedWords ps T (Lowered.ofLeaf l).names) :
    sequenceLanguage v as ≤ derivedWords ps T (lowerSequence s as).1.names := by
  match as with
  | [] => exact one_le_derivedWords_nil
  | a :: as =>
    rw [sequenceLeaves, List.forall_mem_append] at hv
    obtain ⟨hx, hy⟩ := List.append_subset.1 hps
    rw [sequenceLanguage]
    refine le_trans ?_ (derivedWords_mul_le _ _)
    exact mul_le_mul' (atomLanguage_le_derived s a hx hv.1)
      (sequenceLanguage_le_derived _ as hy hv.2)

/-- The language of an expression is contained in what is derived from the name that it was lowered
under. -/
theorem language_le_derived (lhs : Name) (s : Supply) (e : List (List Atom))
    (hps : (lowerInto lhs s e).1.productions ⊆ ps)
    (hv : ∀ l ∈ leaves e, l.language v ≤ derivedWords ps T (Lowered.ofLeaf l).names) :
    language v e ≤ derivedWords ps T [lhs] := by
  match e with
  | [] => exact bot_le
  | alternative :: rest =>
    rw [leaves, List.forall_mem_append] at hv
    obtain ⟨hx, hy⟩ := List.append_subset.1 hps
    obtain ⟨hx, hclose⟩ := List.append_subset.1 hx
    rw [language]
    refine add_le_iff.2 ⟨?_, language_le_derived lhs _ rest hy hv.2⟩
    exact (sequenceLanguage_le_derived s alternative hx hv.1).trans
      (derivedWords_rhs_le (hclose List.mem_cons_self))

end

end Expr

/-- The productions of each rule are among those of the list. -/
theorem exists_lowerInto_subset (s : Supply) {rules : List Rule} {r : Rule} (hr : r ∈ rules) :
    ∃ s', (Expr.lowerInto r.name s' r.body).1.productions ⊆ (lowerRules s rules).1.productions := by
  induction rules generalizing s with
  | nil => exact absurd hr List.not_mem_nil
  | cons q rules ih =>
    rcases List.mem_cons.1 hr with rfl | hr
    · exact ⟨s, List.subset_append_left _ _⟩
    · obtain ⟨s', hs'⟩ := ih (Expr.lowerInto q.name s q.body).2 hr
      exact ⟨s', List.Subset.trans hs' (List.subset_append_right _ _)⟩

end Derived

/-! ## 2. The two meanings -/

section Rules

variable {rules : List Rule} {v : Valuation} {n : Name}

theorem rulesLanguage_le_iff {X : Language Name} :
    rulesLanguage v rules n ≤ X ↔ ∀ r ∈ rules, r.name = n → Expr.language v r.body ≤ X := by
  induction rules with
  | nil => simp [rulesLanguage]
  | cons r rules ih =>
    rw [rulesLanguage] at ih
    rw [rulesLanguage, List.forall_mem_cons, ← ih]
    by_cases hr : r.name = n
    · simp [hr]
    · simp [hr]

theorem meaning_eq (rules : List Rule) : equations rules (meaning rules) = meaning rules :=
  (isLeast_meaning rules).1

theorem meaning_of_notMem (hn : n ∉ rules.map (·.name)) : meaning rules n = {[n]} := by
  rw [← meaning_eq, equations, if_neg hn]

theorem language_le_meaning {r : Rule} (hr : r ∈ rules) :
    Expr.language (meaning rules) r.body ≤ meaning rules r.name := by
  have hn : r.name ∈ rules.map (·.name) := List.mem_map_of_mem hr
  conv_rhs => rw [← meaning_eq, equations, if_pos hn]
  exact rulesLanguage_le_iff.1 le_rfl r hr rfl

/-- If no literal reads as the name of a rule, the meaning of the rules reads their leaves. -/
theorem reads_meaning (hliterals : ∀ r ∈ rules, ∀ l ∈ Expr.leaves r.body, ∀ t,
      l.literal? = some t → t ∉ rules.map (·.name)) :
    ∀ r ∈ rules, (meaning rules).Reads (Expr.leaves r.body) := by
  intro r hr l hl
  cases l with
  | name n => exact Valuation.sequence_singleton _ n
  | literal t =>
    refine (Valuation.sequence_singleton _ t).trans ?_
    exact meaning_of_notMem (hliterals r hr _ hl t rfl)
  | unknown => rfl

/-- What can be derived from the name of each rule; the other names stand for themselves. -/
def derivedValuation (ps : List Production) (T : Name → Prop) (rules : List Rule) : Valuation :=
  fun n => if n ∈ rules.map (·.name) then derivedWords ps T [n] else {[n]}

/-- A leaf is contained in what is derived from it. -/
theorem Leaf.language_le_derivedWords (ps : List Production) {T : Name → Prop} {l : Leaf}
    (hT : ∀ m ∈ (Lowered.ofLeaf l).names, m ∉ rules.map (·.name) → T m)
    (hliteral : ∀ t, l.literal? = some t → t ∉ rules.map (·.name)) :
    l.language (derivedValuation ps T rules) ≤ derivedWords ps T (Lowered.ofLeaf l).names := by
  cases l with
  | name m =>
    show derivedValuation ps T rules m ≤ derivedWords ps T [m]
    rw [derivedValuation]
    split
    · exact le_rfl
    · rename_i hm
      exact singleton_le_derivedWords (hT m (List.mem_singleton.2 rfl) hm)
  | literal t =>
    exact singleton_le_derivedWords (hT t (List.mem_singleton.2 rfl) (hliteral t rfl))
  | unknown => exact one_le_derivedWords_nil

/-- The valuation is closed under the equations, so it contains the meaning of the rules. -/
theorem meaning_le_derivedValuation (ps : List Production) (T : Name → Prop)
    (hps : ∀ r ∈ rules, ∃ s, (Expr.lowerInto r.name s r.body).1.productions ⊆ ps)
    (hT : ∀ r ∈ rules, ∀ l ∈ Expr.leaves r.body, ∀ n ∈ (Lowered.ofLeaf l).names,
      n ∉ rules.map (·.name) → T n)
    (hliterals : ∀ r ∈ rules, ∀ l ∈ Expr.leaves r.body, ∀ t, l.literal? = some t →
      t ∉ rules.map (·.name)) :
    meaning rules ≤ derivedValuation ps T rules := by
  refine OrderHom.lfp_le ⟨equations rules, equations_mono rules⟩ fun n => ?_
  show equations rules (derivedValuation ps T rules) n ≤ derivedValuation ps T rules n
  rw [equations, derivedValuation]
  split
  · refine rulesLanguage_le_iff.2 fun r hr hn => ?_
    obtain ⟨s, hs⟩ := hps r hr
    rw [← hn]
    exact Expr.language_le_derived r.name s r.body hs fun l hl =>
      Leaf.language_le_derivedWords ps (hT r hr l hl) (hliterals r hr l hl)
  · exact le_rfl

end Rules

/-- **Lowering preserves the language.**  Rules are lowered one after the other, with all their
names, the names that occur in them and the texts of their literals taken, and no literal reads as
the name of a rule.  Then the words without rule names and invented names that can be derived from
the name of a rule are the words of its meaning. -/
theorem derives_lowerRules_iff {rules : List Rule} {taken : List Name}
    (hnames : ∀ r ∈ rules, r.name ∈ taken)
    (hleaves : ∀ r ∈ rules, ∀ l ∈ Expr.leaves r.body, ∀ n,
      l.identifier? = some n ∨ l.literal? = some n → n ∈ taken)
    (hliterals : ∀ r ∈ rules, ∀ l ∈ Expr.leaves r.body, ∀ t, l.literal? = some t →
      t ∉ rules.map (·.name))
    {a : Name} (ha : a ∈ rules.map (·.name)) (w : List Name) :
    (Derives (lowerRules (.ofTaken taken) rules).1.productions [a] w ∧
      ∀ n ∈ w, n ∉ rules.map (·.name) ∧ n ∉ (lowerRules (.ofTaken taken) rules).1.fresh) ↔
    w ∈ meaning rules a := by
  have hholds : ∀ r ∈ rules, (Supply.ofTaken taken).Holds (Expr.leaves r.body) :=
    fun r hr l hl n hn => hleaves r hr l hl n (mem_names_ofLeaf.1 hn)
  have hscoped := scoped_lowerRules (.ofTaken taken) rules hnames hholds
  obtain ⟨r, hr, rfl⟩ := List.mem_map.1 ha
  constructor
  · rintro ⟨hd, hw⟩
    obtain ⟨v, hv, hsat, -⟩ := interprets_lowerRules (.ofTaken taken) rules hnames hholds
      (reads_meaning hliterals) fun q hq => language_le_meaning hq
    have hself : ∀ n ∈ w, v n = {[n]} := fun n hn => by
      rw [hv n (hw n hn).2, meaning_of_notMem (hw n hn).1]
    have hmem := hsat.sequence_le hd (Valuation.mem_sequence_of_forall hself)
    rwa [Valuation.sequence_singleton, hscoped.eq_of_agreesOff hv (hnames r hr)] at hmem
  · intro hw
    have hle := meaning_le_derivedValuation (lowerRules (.ofTaken taken) rules).1.productions
      (fun n => n ∉ rules.map (·.name) ∧ n ∉ (lowerRules (.ofTaken taken) rules).1.fresh)
      (fun q hq => exists_lowerInto_subset (.ofTaken taken) hq)
      (fun q hq l hl n hn hn' => ⟨hn', fun hf => hscoped.notMem n hf (hholds q hq l hl n hn)⟩)
      hliterals
    have hmem := hle r.name hw
    rw [derivedValuation, if_pos ha] at hmem
    exact hmem

/-- One rule, `S: 'a'+ ;`, lowered where the first name for its repetition is taken. -/
theorem mem_meaning_plus :
    let rules : List Rule := [⟨"S", [[.leaf (.literal "a") .plus none]], none⟩]
    let ps : List Production :=
      [⟨"__rep2", []⟩, ⟨"__rep2", ["a", "__rep2"]⟩, ⟨"S", ["a", "__rep2"]⟩]
    (lowerRules (.ofTaken ["S", "a", "__rep1"]) rules).1.productions = ps ∧
      (["a", "a"] : List Name) ∈ meaning rules "S" := by
  intro rules ps
  have hps : (lowerRules (.ofTaken ["S", "a", "__rep1"]) rules).1.productions = ps := by decide
  refine ⟨hps, (@derives_lowerRules_iff rules ["S", "a", "__rep1"] ?_ ?_ ?_ _ ?_ _).1 ⟨?_, ?_⟩⟩
  · decide
  · simp [rules, Expr.leaves, Expr.sequenceLeaves, Expr.atomLeaves, Leaf.identifier?,
      Leaf.literal?]
  · simp [rules, Expr.leaves, Expr.sequenceLeaves, Expr.atomLeaves, Leaf.literal?]
  · decide
  · rw [hps]
    have hS : Derives ps ["S"] ["a", "__rep2"] :=
      .of_mem (p := ⟨"S", ["a", "__rep2"]⟩) (by decide)
    have hnil : Derives ps ["__rep2"] [] := .of_mem (p := ⟨"__rep2", []⟩) (by decide)
    have hcons : Derives ps ["__rep2"] ["a", "__rep2"] :=
      .of_mem (p := ⟨"__rep2", ["a", "__rep2"]⟩) (by decide)
    exact hS.trans ((hcons.trans (hnil.append_left ["a"])).append_left ["a"])
  · decide

end Lookahead
