import Lookahead.Grammar.WellFormed
import Lookahead.Proofs.Fresh

/-!
# Which names a lowered declaration declares

## 1. Names of the plain grammar

The non-terminals of the plain grammar are the rule names and the invented names.  Its terminals are
the tokens, the literals, and every identifier that is neither a rule name nor invented
(`Bnf.mem_nonterminals_iff`, `Bnf.mem_terminals_iff`).

## 2. Hygiene

Rule names and tokens are taken from the start, so they are never invented.  Nothing of the kind
holds of the other names that occur: identifiers in rules, literals, and the start symbol.  If none
of these is invented, they mean what they seem to mean: an identifier that is no rule name is a
terminal, so is a literal, and a start symbol that is no rule name is refused
(`Bnf.ofBnf_eq_error`).  But if the start symbol is invented, the analysis starts from a part of a
rule.
-/

namespace Lookahead

theorem names_lowerRules (s : Supply) (rules : List Rule) : (lowerRules s rules).1.names = [] := by
  induction rules generalizing s with
  | nil => rfl
  | cons r rules ih =>
    rw [lowerRules, Lowered.names_append, Expr.names_lowerInto, ih, List.append_nil]

namespace Declaration

/-- The non-terminals that are invented when the rules are lowered. -/
def invented (d : Declaration) : List Name := (lowerRules (Bnf.supplyOf d) d.rules).1.fresh

/-- Rule names and tokens are never invented. -/
theorem notMem_of_mem_invented {d : Declaration} {n : Name} (hn : n ∈ d.invented) :
    n ∉ d.ruleNames ∧ n ∉ d.tokens := by
  have hnew := (spells_lowerRules (Bnf.supplyOf d) d.rules).notMem n hn
  rwa [Bnf.supplyOf, Supply.ofTaken, List.mem_append, not_or] at hnew

/-- The names in the leaves are the identifiers and the literals. -/
theorem mem_namesOf_leaves {d : Declaration} {n : Name} :
    n ∈ namesOf d.leaves ↔ n ∈ d.identifiers ∨ n ∈ d.literals := mem_namesOf

/-- Every identifier and every literal stands in a production that comes of the rules. -/
theorem exists_rhs_lowered {d : Declaration} {n : Name} (hn : n ∈ d.identifiers ∨ n ∈ d.literals) :
    ∃ p ∈ (lowerRules (Bnf.supplyOf d) d.rules).1.productions, n ∈ p.rhs :=
  (spells_lowerRules (Bnf.supplyOf d) d.rules).exists_rhs (names_lowerRules ..)
    (mem_namesOf_leaves.2 hn)

/-- Besides them, there are only invented names. -/
theorem mem_of_mem_rhs_lowered {d : Declaration} {p : Production}
    (hp : p ∈ (lowerRules (Bnf.supplyOf d) d.rules).1.productions) {n : Name} (hn : n ∈ p.rhs)
    (hnew : n ∉ d.invented) : n ∈ d.identifiers ∨ n ∈ d.literals := by
  have hleaf := (spells_lowerRules (Bnf.supplyOf d) d.rules).rhs_mem p hp n hn
  exact mem_namesOf_leaves.1 (hleaf.resolve_right hnew)

theorem startName_of_ne {d : Declaration} {s : Name} (h : d.start = some s) (hs : s ≠ "") :
    d.startName = s := by
  rw [startName, h]
  simp [Text.isEmpty_iff, hs]

end Declaration

namespace Bnf

variable {d : Declaration} {b : Bnf}

/-! ## 1. Names of the plain grammar -/

theorem eq_ofLowered (h : ofDeclaration d = .ok b) :
    b = ofLowered d (lowerRules (supplyOf d) d.rules).1 := by
  unfold ofDeclaration at h
  split at h
  · cases h
  · exact (Except.ok.inj h).symm

/-- The non-terminals are the rule names and the invented names. -/
theorem mem_nonterminals_iff (h : ofDeclaration d = .ok b) {n : Name} :
    n ∈ b.nonterminals ↔ n ∈ d.ruleNames ∨ n ∈ d.invented := by
  rw [eq_ofLowered h, ofLowered, mem_firstOccurrences, List.mem_append]
  rfl

/-- The terminals are the tokens, the literals, and the identifiers that are no non-terminals. -/
theorem mem_terminals_iff (h : ofDeclaration d = .ok b) {n : Name} :
    n ∈ b.terminals ↔
      n ∈ d.tokens ∨ n ∈ d.literals ∨ n ∈ d.identifiers ∧ n ∉ b.nonterminals := by
  have hliterals : (lowerRules (supplyOf d) d.rules).1.literals = d.literals :=
    (spells_lowerRules (supplyOf d) d.rules).literals_eq
  have hterminals : n ∈ b.terminals ↔ n ∈ d.tokens ∨
      (∃ p ∈ (lowerRules (supplyOf d) d.rules).1.productions, n ∈ p.rhs) ∧
        (n ∈ d.literals ∨ n ∉ b.nonterminals) := by
    rw [eq_ofLowered h, ofLowered]
    simp only [mem_firstOccurrences, List.mem_append, List.mem_filter, List.mem_flatMap,
      decide_eq_true_eq, hliterals]
  rw [hterminals]
  constructor
  · rintro (hn | ⟨⟨p, hp, hn⟩, hl | hnot⟩)
    · exact Or.inl hn
    · exact Or.inr (Or.inl hl)
    · -- a name that is no non-terminal is not invented, so it stands in a leaf
      have hnew : n ∉ d.invented := fun hi => hnot ((mem_nonterminals_iff h).2 (Or.inr hi))
      rcases Declaration.mem_of_mem_rhs_lowered hp hn hnew with hi | hl
      · exact Or.inr (Or.inr ⟨hi, hnot⟩)
      · exact Or.inr (Or.inl hl)
  · rintro (hn | hl | ⟨hi, hnot⟩)
    · exact Or.inl hn
    · exact Or.inr ⟨Declaration.exists_rhs_lowered (Or.inr hl), Or.inl hl⟩
    · exact Or.inr ⟨Declaration.exists_rhs_lowered (Or.inl hi), Or.inr hnot⟩

/-! ## 2. Hygiene -/

/-- A start symbol that is no non-terminal is refused.  It is reported unless a kind is ambiguous or
the end marker is declared. -/
theorem ofBnf_eq_error (hs : b.start ∉ b.nonterminals) :
    (∃ e, Grammar.ofBnf b = .error e) ∧
      ((∀ n ∈ b.terminals, n ∉ b.nonterminals) → endMarker ∉ b.terminals ++ b.nonterminals →
        Grammar.ofBnf b = .error (.invalidStart (some b.start))) := by
  constructor
  · cases hf : Catalog.freezeFault? b.terminals b.nonterminals (some b.start) with
    | some e => exact ⟨e, by rw [Grammar.ofBnf, Grammar.plain, Catalog.freeze_of_fault rfl hf]⟩
    | none =>
      obtain ⟨-, -, -, s, hmem, heq⟩ := Catalog.freezeFault?_eq_none_iff.1 hf
      rw [Option.some.injEq] at heq
      exact absurd (heq ▸ hmem) hs
  · intro hd he
    have hfind : b.terminals.find? (· ∈ b.nonterminals) = none := by simpa using hd
    have hf : Catalog.freezeFault? b.terminals b.nonterminals (some b.start) =
        some (.invalidStart (some b.start)) := by
      rw [List.mem_append] at he
      rw [Catalog.freezeFault?, hfind]
      simp only [if_neg he, if_neg hs]
    rw [Grammar.ofBnf, Grammar.plain, Catalog.freeze_of_fault rfl hf]

/-- **What the names of a declaration become.**  Rule names and tokens are never invented.  An
identifier that is no rule name is a terminal and nothing else, unless it is invented.  A literal is
a terminal, and nothing else unless it is a rule name or invented.  And if the start symbol is no
rule name and not invented, no grammar comes of the declaration; the start symbol is reported unless
one of the faults is present that are looked for first. -/
theorem kinds_of_ofDeclaration (h : ofDeclaration d = .ok b) :
    (∀ n ∈ d.invented, n ∉ d.ruleNames ∧ n ∉ d.tokens) ∧
      (∀ n ∈ d.identifiers, n ∉ d.ruleNames →
        ((n ∈ b.terminals ∧ n ∉ b.nonterminals) ↔ n ∉ d.invented)) ∧
      (∀ n ∈ d.literals, n ∈ b.terminals ∧
        (n ∈ b.nonterminals ↔ n ∈ d.ruleNames ∨ n ∈ d.invented)) ∧
      ∀ s, d.start = some s → s ≠ "" → s ∉ d.ruleNames → s ∉ d.invented →
        (∃ e, Grammar.ofBnf b = .error e) ∧
          ((∀ n ∈ b.terminals, n ∉ b.nonterminals) → endMarker ∉ b.terminals ++ b.nonterminals →
            Grammar.ofBnf b = .error (.invalidStart (some s))) := by
  refine ⟨fun n => Declaration.notMem_of_mem_invented, fun n hi hr => ?_, fun n hl => ?_,
    fun s hstart hne hr hs => ?_⟩
  · have hnonterminal : n ∈ b.nonterminals ↔ n ∈ d.invented := by
      rw [mem_nonterminals_iff h, or_iff_right hr]
    rw [hnonterminal, and_iff_right_iff_imp]
    exact fun hn => (mem_terminals_iff h).2 (Or.inr (Or.inr ⟨hi, hnonterminal.not.2 hn⟩))
  · exact ⟨(mem_terminals_iff h).2 (Or.inr (Or.inl hl)), mem_nonterminals_iff h⟩
  · have hb : b.start = s := by
      rw [eq_ofLowered h]
      exact Declaration.startName_of_ne hstart hne
    subst hb
    exact ofBnf_eq_error fun hn => ((mem_nonterminals_iff h).1 hn).elim hr hs

/-- A start symbol that is neither a rule name nor invented, though a name is invented. -/
theorem ofBnf_of_unknownStart :
    ∃ b, ofDeclaration ⟨[], [⟨"S", [[.leaf (.literal "a") .star none]], none⟩], some "T"⟩ = .ok b ∧
      Grammar.ofBnf b = .error (.invalidStart (some "T")) := by
  refine ⟨_, rfl, ?_⟩
  obtain ⟨-, -, -, hstart⟩ := kinds_of_ofDeclaration
    (d := ⟨[], [⟨"S", [[.leaf (.literal "a") .star none]], none⟩], some "T"⟩) rfl
  exact (hstart "T" rfl (by decide) (by decide) (by decide)).2 (by decide) (by decide)

/-- The start symbol is no rule name but the name that is invented for the repetition, and so a
grammar comes of the declaration. -/
theorem exists_ofBnf_of_invented :
    let d : Declaration := ⟨[], [⟨"S", [[.leaf (.literal "a") .star none]], none⟩], some "__rep1"⟩
    let n : Name := "__rep1"
    n ∈ d.names ∧ n ∉ d.ruleNames ∧ n ∈ d.invented ∧
      ∃ b g, ofDeclaration d = .ok b ∧ Grammar.ofBnf b = .ok g :=
  ⟨by decide, by decide, by decide, _, _, rfl, rfl⟩

end Bnf

end Lookahead
