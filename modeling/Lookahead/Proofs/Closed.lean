import Lookahead.Proofs.Checks
import Lookahead.Proofs.Hygiene

/-!
# Plain grammars of declarations are closed

## 1. Known kinds

A declaration of which every atom stands for something, read as often as one of the four suffixes
says, can be lowered (`Declaration.IsKnown.faultOf?_eq_none`).

## 2. Names

Whatever else stands in its productions, the plain grammar has classified it.  A name of a
right-hand side is invented, and then it is a non-terminal; or it is an identifier or a literal, at
whatever depth, and then it is a terminal or a non-terminal (`Bnf.isClosed_of_ofDeclaration`).  It
can be both, but only if it is a token or a literal (`Bnf.mem_both_iff`).

## 3. Refusal

So the plain grammar is never refused for one of its productions.  It is refused for a name of both
kinds, for the end marker, or for the start symbol, in this order (`Bnf.ofBnf_eq_error_iff`).
-/

namespace Lookahead

/-! ## 1. Known kinds -/

/-- Whether the suffix is one of the four that have a meaning. -/
def Suffix.IsKnown (suffix : Suffix) : Prop := ∀ word, suffix ≠ .other word

/-- Whether the atom and all atoms inside stand for something and have known suffixes. -/
inductive Atom.IsKnown : Atom → Prop
  | leaf {l : Leaf} {suffix : Suffix} {span : Option Span} (hl : l ≠ .unknown)
      (hs : suffix.IsKnown) : IsKnown (.leaf l suffix span)
  | group {e : List (List Atom)} {suffix : Suffix} {span : Option Span}
      (he : ∀ as ∈ e, ∀ a ∈ as, IsKnown a) (hs : suffix.IsKnown) : IsKnown (.group e suffix span)

/-- Whether all atoms in the rules are of known kinds. -/
def Declaration.IsKnown (d : Declaration) : Prop :=
  ∀ r ∈ d.rules, ∀ as ∈ r.body, ∀ a ∈ as, a.IsKnown

theorem Suffix.IsKnown.suffixFault?_eq_none {suffix : Suffix} (h : suffix.IsKnown) :
    Expr.suffixFault? suffix = none := by
  cases suffix with
  | other word => exact absurd rfl (h word)
  | _ => rfl

namespace Expr

theorem sequenceFault?_eq_none {as : List Atom} (h : ∀ a ∈ as, atomFault? a = none) :
    sequenceFault? as = none := by
  induction as with
  | nil => rfl
  | cons a as ih =>
    rw [List.forall_mem_cons] at h
    rw [sequenceFault?, h.1, ih h.2]
    rfl

theorem fault?_eq_none {e : List (List Atom)} (h : ∀ as ∈ e, ∀ a ∈ as, atomFault? a = none) :
    fault? e = none := by
  induction e with
  | nil => rfl
  | cons as e ih =>
    rw [List.forall_mem_cons] at h
    rw [fault?, sequenceFault?_eq_none h.1, ih h.2]
    rfl

end Expr

theorem Atom.IsKnown.atomFault?_eq_none {a : Atom} (h : a.IsKnown) : Expr.atomFault? a = none := by
  induction h with
  | @leaf l suffix _ hl hs =>
    cases l with
    | unknown => exact absurd rfl hl
    | _ => exact hs.suffixFault?_eq_none
  | group _ hs ih =>
    rw [Expr.atomFault?, Expr.fault?_eq_none ih, hs.suffixFault?_eq_none]
    rfl

theorem Declaration.IsKnown.faultOf?_eq_none {d : Declaration} (h : d.IsKnown) :
    Bnf.faultOf? d = none :=
  List.findSome?_eq_none_iff.2 fun r hr =>
    Expr.fault?_eq_none fun as has a ha => (h r hr as has a ha).atomFault?_eq_none

namespace Bnf

variable {d : Declaration} {b : Bnf}

/-! ## 2. Names -/

/-- Whether the productions are over the names of the plain grammar, and no name is listed twice. -/
structure IsClosed (b : Bnf) : Prop where
  lhs_mem : ∀ p ∈ b.productions, p.lhs ∈ b.nonterminals
  rhs_mem : ∀ p ∈ b.productions, ∀ n ∈ p.rhs, n ∈ b.terminals ∨ n ∈ b.nonterminals
  nodup_terminals : b.terminals.Nodup
  nodup_nonterminals : b.nonterminals.Nodup

theorem isClosed_of_ofDeclaration (h : ofDeclaration d = .ok b) : b.IsClosed := by
  have hb := eq_ofLowered h
  have hps : b.productions = (lowerRules (supplyOf d) d.rules).1.productions := by
    rw [hb]
    rfl
  have hspells := spells_lowerRules (supplyOf d) d.rules
  refine ⟨fun p hp => ?_, fun p hp n hn => ?_, ?_, ?_⟩
  · rw [hps] at hp
    refine (mem_nonterminals_iff h).2 ((hspells.lhs_mem p hp).imp_left fun hl => ?_)
    -- rules are lowered under their names
    obtain ⟨r, hr, hl⟩ := List.mem_flatMap.1 hl
    obtain ⟨_, -, hl⟩ := List.mem_map.1 hl
    exact hl ▸ List.mem_map.2 ⟨r, hr, rfl⟩
  · rw [hps] at hp
    by_cases hnew : n ∈ d.invented
    · exact Or.inr ((mem_nonterminals_iff h).2 (Or.inr hnew))
    · by_cases hnonterminal : n ∈ b.nonterminals
      · exact Or.inr hnonterminal
      · refine Or.inl ((mem_terminals_iff h).2 (Or.inr ?_))
        exact (Declaration.mem_of_mem_rhs_lowered hp hn hnew).symm.imp_right (⟨·, hnonterminal⟩)
  · rw [hb]
    exact nodup_firstOccurrences _
  · rw [hb]
    exact nodup_firstOccurrences _

/-- A non-terminal is a terminal as well exactly if it is a token or a literal. -/
theorem mem_both_iff (h : ofDeclaration d = .ok b) {n : Name} :
    n ∈ b.terminals ∧ n ∈ b.nonterminals ↔
      n ∈ b.nonterminals ∧ (n ∈ d.tokens ∨ n ∈ d.literals) := by
  rw [mem_terminals_iff h]
  constructor
  · rintro ⟨ht | hl | ⟨-, hnot⟩, hn⟩
    · exact ⟨hn, Or.inl ht⟩
    · exact ⟨hn, Or.inr hl⟩
    · exact absurd hn hnot
  · rintro ⟨hn, ht | hl⟩
    · exact ⟨Or.inl ht, hn⟩
    · exact ⟨Or.inr (Or.inl hl), hn⟩

/-- Whether the declaration mentions the end marker, other than as its start symbol. -/
def MentionsEndMarker (d : Declaration) : Prop :=
  endMarker ∈ d.tokens ∨ endMarker ∈ d.literals ∨ endMarker ∈ d.identifiers ∨
    endMarker ∈ d.ruleNames

/-- The end marker is never invented, so it is declared exactly if it is mentioned. -/
theorem endMarker_mem_iff (h : ofDeclaration d = .ok b) :
    endMarker ∈ b.terminals ∨ endMarker ∈ b.nonterminals ↔ MentionsEndMarker d := by
  have hnew : endMarker ∉ d.invented :=
    (spells_lowerRules (supplyOf d) d.rules).endMarker_notMem
  have hrule : endMarker ∈ b.nonterminals ↔ endMarker ∈ d.ruleNames := by
    rw [mem_nonterminals_iff h, or_iff_left hnew]
  rw [mem_terminals_iff h, hrule, MentionsEndMarker]
  tauto

/-! ## 3. Refusal -/

/-- For what a plain grammar of a declaration is refused. -/
inductive IsRefused (d : Declaration) (b : Bnf) : GrammarError → Prop
  /-- Some names are of both kinds, and this is the first of them. -/
  | ambiguousKind {n : Name} (hn : IsFirst (· ∈ b.nonterminals) b.terminals n) :
      IsRefused d b (.ambiguousKind n)
  /-- No name is, and the end marker is mentioned. -/
  | reserved (hd : ∀ n ∈ b.terminals, n ∉ b.nonterminals) (he : MentionsEndMarker d) :
      IsRefused d b .reserved
  /-- Neither is the case, and the start symbol is no non-terminal. -/
  | invalidStart (hd : ∀ n ∈ b.terminals, n ∉ b.nonterminals) (he : ¬ MentionsEndMarker d)
      (hs : b.start ∉ b.nonterminals) : IsRefused d b (.invalidStart (some b.start))

theorem ofBnf_eq_error_iff (h : ofDeclaration d = .ok b) {e : GrammarError} :
    Grammar.ofBnf b = .error e ↔ IsRefused d b e := by
  have hclosed := isClosed_of_ofDeclaration h
  rw [Grammar.ofBnf, Grammar.plain_eq_error_iff]
  constructor
  · intro hfault
    cases hfault with
    | freeze hverdict =>
      cases hverdict with
      | ambiguousKind ht hb hn => exact .ambiguousKind ⟨_, _, ht, hn, hb⟩
      | reserved hd he => exact .reserved hd ((endMarker_mem_iff h).1 he)
      | invalidStart hd ht hn hs =>
        refine .invalidStart hd (fun he => ?_) fun hmem => hs _ hmem rfl
        exact ((endMarker_mem_iff h).2 he).elim ht hn
    | @production p _ _ hp he =>
      -- no production is faulty
      obtain ⟨before, after, hps, -⟩ := hp
      have hmem : p ∈ b.productions := hps ▸ List.mem_append_right before List.mem_cons_self
      cases he with
      | unknownLhs hl => exact absurd (hclosed.lhs_mem p hmem) hl
      | undeclaredSymbol _ hn =>
        obtain ⟨left, right, hrhs, ⟨hts, hns⟩, -⟩ := hn
        have hmem' := hclosed.rhs_mem p hmem _
          (hrhs ▸ List.mem_append_right left List.mem_cons_self)
        exact absurd hmem' (not_or.2 ⟨hts, hns⟩)
  · intro hrefused
    refine .freeze ?_
    cases hrefused with
    | ambiguousKind hn =>
      obtain ⟨before, after, ht, hn, hb⟩ := hn
      exact .ambiguousKind ht hb hn
    | reserved hd he => exact .reserved hd ((endMarker_mem_iff h).2 he)
    | invalidStart hd he hs =>
      rw [← endMarker_mem_iff h, not_or] at he
      refine .invalidStart hd he.1 he.2 fun s hmem heq => hs ?_
      rwa [Option.some.inj heq]

/-- **The plain grammar of a declaration is closed.**  A declaration of known kinds can be lowered.
The productions are over the terminals and non-terminals, neither of which are listed twice, and the
names of both kinds are the non-terminals that are a token or a literal.  The plain grammar is
refused for the first name of both kinds, for the end marker if it is mentioned, or for the start
symbol, in this order, and for nothing else. -/
theorem exists_ofDeclaration_closed (hd : d.IsKnown) :
    ∃ b, ofDeclaration d = .ok b ∧ b.IsClosed ∧
      (∀ n, n ∈ b.terminals ∧ n ∈ b.nonterminals ↔
        n ∈ b.nonterminals ∧ (n ∈ d.tokens ∨ n ∈ d.literals)) ∧
      (∀ e, Grammar.ofBnf b = .error e ↔ IsRefused d b e) ∧
      ∀ e, Grammar.ofBnf b = .error e →
        e.label ∉ ["UndeclaredSymbol", "UnknownLhs", "ExtendedNotationError"] := by
  have h : ofDeclaration d = .ok (ofLowered d (lowerRules (supplyOf d) d.rules).1) := by
    rw [ofDeclaration, hd.faultOf?_eq_none]
  refine ⟨_, h, isClosed_of_ofDeclaration h, fun n => mem_both_iff h,
    fun e => ofBnf_eq_error_iff h, fun e he => ?_⟩
  cases (ofBnf_eq_error_iff h).1 he <;> simp [GrammarError.label]

/-- A literal inside a repeated group that is a rule name as well. -/
theorem ofBnf_of_literalRule :
    let d : Declaration := ⟨["T"],
      [⟨"S", [[.group [[.leaf (.literal "a") .once none], [.ofName "T"]] .star none]], none⟩,
        ⟨"a", [[.ofName "S"]], none⟩], none⟩
    ∃ b, ofDeclaration d = .ok b ∧ b.IsClosed ∧
      Grammar.ofBnf b = .error (.ambiguousKind "a") := by
  intro d
  have hknown : d.IsKnown := by
    have honce : Suffix.IsKnown .once := fun _ => by simp
    have hname : ∀ n, Atom.IsKnown (.ofName n) := fun n => .leaf (by simp) honce
    have hliteral : Atom.IsKnown (.leaf (.literal "a") .once none) := .leaf (by simp) honce
    have hgroup : Atom.IsKnown
        (.group [[.leaf (.literal "a") .once none], [.ofName "T"]] .star none) :=
      .group (by simpa using ⟨hliteral, hname "T"⟩) fun _ => by simp
    simpa [Declaration.IsKnown, d] using ⟨hgroup, hname "S"⟩
  have hlowered : ofDeclaration d = .ok ⟨"S",
      [⟨"__grp1", ["a"]⟩, ⟨"__grp1", ["T"]⟩, ⟨"__rep1", []⟩, ⟨"__rep1", ["__grp1", "__rep1"]⟩,
        ⟨"S", ["__rep1"]⟩, ⟨"a", ["S"]⟩],
      ["T", "a"], ["S", "a", "__grp1", "__rep1"]⟩ := by decide
  obtain ⟨b, hb, hclosed, -, hrefused, -⟩ := exists_ofDeclaration_closed hknown
  obtain rfl := Except.ok.inj (hb.symm.trans hlowered)
  exact ⟨_, hb, hclosed, (hrefused _).2 (.ambiguousKind ⟨["T"], [], rfl, by decide, by decide⟩)⟩

end Bnf

end Lookahead
