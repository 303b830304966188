import Lookahead.Extended.Bnf
import Lookahead.Extended.Declaration

/-!
# Redundant parentheses

Parentheses that only hold a stretch of a sequence together are lowered to nothing: no name is
invented for them, no production comes of them, and so nothing behind them is numbered differently.
The same holds of parentheses between an atom and its suffix.

## 1. Sequences that are lowered alike

Two sequences are **lowered alike** if the same comes of them from every supply, and if they have the
same fault (`Expr.LowersAlike`).  Whatever the context is, it keeps this relation: atoms in front and
behind, and a group around one of its alternatives.  The last is where care is needed, since a group
of one alternative is lowered without a name.

## 2. Declarations

So two sequences that differ in one redundant pair of parentheses are lowered alike, however deep the
pair is (`Regrouped.lowersAlike`).  Then the whole lists of rules are, and the plain grammars of the
two declarations are the same (`Bnf.ofDeclaration_eq_of_regrouped`).
-/

namespace Lookahead

/-! ## 1. Sequences that are lowered alike -/

namespace Expr

/-- The same comes of the two sequences from every supply, and they have the same fault. -/
structure LowersAlike (as bs : List Atom) : Prop where
  lowerSequence_eq : ∀ s, lowerSequence s as = lowerSequence s bs
  fault?_eq : sequenceFault? as = sequenceFault? bs

theorem lowerSequence_singleton (s : Supply) (a : Atom) : lowerSequence s [a] = lowerAtom s a := by
  rw [lowerSequence_cons, lowerSequence, Lowered.append_nil]

/-- Parentheses around a sequence. -/
theorem lowersAlike_parentheses (as : List Atom) (span : Option Span) :
    LowersAlike as [.group [as] .once span] where
  lowerSequence_eq s := by rw [lowerSequence_singleton, lowerAtom_group_singleton]; rfl
  fault?_eq := by simp only [sequenceFault?, atomFault?, fault?, suffixFault?, Option.or_none]

/-- Parentheses between an atom and a suffix. -/
theorem lowersAlike_parentheses_suffix (a : Atom) {suffix : Suffix}
    (hs : suffixFault? suffix = none) (span : Option Span) :
    LowersAlike [a.withSuffix suffix] [.group [[a.withSuffix .once]] suffix span] where
  lowerSequence_eq s := by
    rw [lowerSequence_singleton, lowerSequence_singleton, lowerAtom_withSuffix,
      lowerAtom_group_singleton, lowerSequence_singleton]
  fault?_eq := by
    have hatom : atomFault? (a.withSuffix suffix) = atomFault? (a.withSuffix .once) := by
      match a with
      | .leaf .unknown _ _ => rfl
      | .leaf (.name n) _ _ => exact hs
      | .leaf (.literal t) _ _ => exact hs
      | .group e _ _ => exact congrArg (fault? e).or hs
    simp only [sequenceFault?, atomFault?, fault?, hatom, hs, Option.or_none]

namespace LowersAlike

variable {as bs : List Atom}

/-- Atoms in front and behind. -/
theorem between (h : LowersAlike as bs) (before after : List Atom) :
    LowersAlike (before ++ (as ++ after)) (before ++ (bs ++ after)) where
  lowerSequence_eq s := by simp only [lowerSequence_append, h.lowerSequence_eq]
  fault?_eq := by simp only [sequenceFault?_append, h.fault?_eq]

theorem lowerInto_eq (h : LowersAlike as bs) (left right : List (List Atom)) (lhs : Name)
    (s : Supply) :
    lowerInto lhs s (left ++ as :: right) = lowerInto lhs s (left ++ bs :: right) := by
  simp only [lowerInto_append, lowerInto_cons, h.lowerSequence_eq]

theorem expressionFault?_eq (h : LowersAlike as bs) (left right : List (List Atom)) :
    fault? (left ++ as :: right) = fault? (left ++ bs :: right) := by
  simp only [fault?_append, fault?, h.fault?_eq]

/-- A group around an alternative. -/
theorem group (h : LowersAlike as bs) (left right : List (List Atom)) (suffix : Suffix)
    (span : Option Span) :
    LowersAlike [.group (left ++ as :: right) suffix span]
      [.group (left ++ bs :: right) suffix span] where
  lowerSequence_eq s := by
    rw [lowerSequence_singleton, lowerSequence_singleton]
    by_cases hone : left = [] ∧ right = []
    · obtain ⟨rfl, rfl⟩ := hone
      rw [List.nil_append, List.nil_append, lowerAtom_group_singleton, lowerAtom_group_singleton,
        h.lowerSequence_eq]
    · have hne : ∀ cs alternative, left ++ cs :: right ≠ [alternative] := by
        intro cs alternative heq
        rw [List.append_eq_singleton_iff] at heq
        simp_all
      rw [lowerAtom_group (hne as), lowerAtom_group (hne bs), h.lowerInto_eq]
  fault?_eq := by simp only [sequenceFault?, atomFault?, h.expressionFault?_eq]

end LowersAlike

end Expr

/-! ## 2. Declarations -/

/-- A redundant pair of parentheses makes no difference to what a sequence is lowered to. -/
theorem Regrouped.lowersAlike {as bs : List Atom} (h : Regrouped as bs) :
    Expr.LowersAlike as bs := by
  induction h with
  | around before stretch after span =>
    rw [List.append_assoc]
    exact (Expr.lowersAlike_parentheses stretch span).between before after
  | @behind before after a suffix span hs =>
    have hknown : Expr.suffixFault? suffix = none := by
      simp only [List.mem_cons, List.not_mem_nil, or_false] at hs
      rcases hs with rfl | rfl | rfl <;> rfl
    exact (Expr.lowersAlike_parentheses_suffix a hknown span).between before after
  | inside before after _ left right suffix span ih =>
    exact (ih.group left right suffix span).between before after

namespace Bnf

/-- **Redundant parentheses make no difference.**  Let one declaration come from another by putting
in one pair of parentheses, at any depth of one of its rules: around a stretch of a sequence, which
may be empty, or between an atom and its suffix.  Then the same comes of both when they are lowered:
the same plain grammar, the invented names and the order of the productions included, or the same
fault. -/
theorem ofDeclaration_eq_of_regrouped {d d' : Declaration} (h : d.Regrouped d') :
    ofDeclaration d' = ofDeclaration d := by
  obtain ⟨d, hbody, before, after, name, left, right, span⟩ := h
  have hlike := hbody.lowersAlike
  have hnames : ∀ as, Declaration.ruleNames
      { d with rules := before ++ ⟨name, left ++ as :: right, span⟩ :: after } =
        before.map (·.name) ++ name :: after.map (·.name) := fun as => by
    rw [Declaration.ruleNames, List.map_append, List.map_cons]
  simp only [ofDeclaration, faultOf?, ofLowered, supplyOf, Declaration.startName, hnames,
    List.findSome?_append, List.findSome?_cons, lowerRules_append, lowerRules_cons,
    hlike.expressionFault?_eq, hlike.lowerInto_eq]

/-- `S : (a | 'b'*) c+ ;` and `S : (a | ('b')*) c+ ;`, where the pair stands inside a group, and a
name is invented for the group and for each repetition. -/
theorem ofDeclaration_eq_of_innerPair :
    let rule (as : List Atom) : Rule :=
      ⟨"S", [[.group [[.ofName "a"], as] .once none, .leaf (.name "c") .plus none]], none⟩
    let inner : Atom := .leaf (.literal "b") .star none
    let inner' : Atom := .group [[.leaf (.literal "b") .once none]] .star none
    Declaration.Regrouped ⟨["c"], [rule [inner]], none⟩ ⟨["c"], [rule [inner']], none⟩ ∧
      ofDeclaration ⟨["c"], [rule [inner']], none⟩ = ofDeclaration ⟨["c"], [rule [inner]], none⟩ ∧
      ∃ b, ofDeclaration ⟨["c"], [rule [inner']], none⟩ = .ok b ∧
        b.nonterminals = (["S", "__grp1", "__rep1", "__rep2"] : List Name) := by
  intro rule inner inner'
  have hpair : Regrouped [inner] [inner'] :=
    .behind [] [] (.leaf (.literal "b") .once none) none (by simp)
  have hgroup := Regrouped.inside [] [.leaf (.name "c") .plus none] hpair [[.ofName "a"]] [] .once
    none
  have h : Declaration.Regrouped ⟨["c"], [rule [inner]], none⟩ ⟨["c"], [rule [inner']], none⟩ :=
    .mk ⟨["c"], [], none⟩ hgroup [] [] "S" [] [] none
  exact ⟨h, ofDeclaration_eq_of_regrouped h, _, rfl, by decide⟩

end Bnf

end Lookahead
