import Lookahead.Grammar.OfText
import Lookahead.Proofs.Construction
import Lookahead.Proofs.Hygiene
import Lookahead.Proofs.Moves
import Lookahead.Proofs.Places
import Lookahead.Proofs.Readback

/-!
# The non-terminals of a grammar text are identifiers

A rule is named by an identifier token, and an invented name is an identifier by itself.  There is
no other way to a non-terminal, so in the grammar of a text all non-terminals are identifiers
(`Grammar.isIdentifier_of_ofText`).  Of the terminals nothing of the kind can be said: a literal may
be any text.
-/

namespace Lookahead

/-! ## 1. Names that are read -/

/-- The letters of an identifier token are an identifier. -/
theorem IsCut.isIdentifier_lexeme {text rest : List Char} {lexemes : List Lexeme}
    (h : IsCut text lexemes rest) {before : List Char} {t : Token}
    (ht : t ∈ tokensBehind before lexemes) (hk : t.kind = .identifier) : IsIdentifier t.name := by
  obtain ⟨earlier, l, later, rfl, hl⟩ := exists_token?_of_mem ht
  have hlexeme := h.isLexeme_of_mem l (by simp)
  rw [Lexeme.cls_of_token? hl, hk, ← Lexeme.toList_lexeme_of_token? hl] at hlexeme
  generalize hcs : t.lexeme.toList = cs at hlexeme
  cases hlexeme with
  | identifier hstart hcontinue =>
    exact ⟨_, _, congrArg Text.ofChars hcs, hstart, hcontinue⟩
  | single hsingle =>
    unfold LexemeClass.single? at hsingle
    split at hsingle <;> cases hsingle

/-- The name of the rule that is being read. -/
def Stage.rule? : Stage → Option Token
  | .head name => some name
  | .body name _ _ _ _ => some name
  | _ => none

namespace Reading

variable [Platform] {r r' : Reading} {t : Token} {ts : List Token}

/-- The names of the rules that have been read or begun. -/
def ruleNames (r : Reading) : List Name :=
  r.declared.ruleNames ++ (r.stage.rule?.map (·.name)).toList

/-- One step adds no rule name, or it adds the identifier that is taken. -/
theorem Moves.ruleNames_eq (h : Moves t r r') :
    r'.ruleNames = r.ruleNames ∨
      t.kind = .identifier ∧ r'.ruleNames = r.ruleNames ++ [t.name] := by
  cases h with
  | lhs hk => exact Or.inr ⟨hk, by simp [ruleNames, Stage.rule?]⟩
  | closeRule hk =>
    -- the name moves from the stage to the rules, and stays the last one
    refine Or.inl ?_
    simp [ruleNames, Stage.rule?, Declaration.ruleNames]
  | _ => exact Or.inl rfl

/-- All rule names that are read are identifiers among the tokens. -/
theorem exists_of_mem_ruleNames (h : ts.foldlM step r = .ok r') {n : Name}
    (hn : n ∈ r'.ruleNames) :
    n ∈ r.ruleNames ∨ ∃ t ∈ ts, t.kind = .identifier ∧ t.name = n := by
  induction ts generalizing r with
  | nil =>
    cases h
    exact Or.inl hn
  | cons t ts ih =>
    obtain ⟨mid, hs, h⟩ := exists_of_foldlM_cons h
    rcases ih h with hmid | ⟨u, hu, hname⟩
    · rcases (moves_of_step hs).ruleNames_eq with heq | ⟨hk, heq⟩
      · exact Or.inl (heq ▸ hmid)
      · rw [heq, List.mem_append, List.mem_singleton] at hmid
        exact hmid.imp_right fun hn => ⟨t, List.mem_cons_self, hk, hn.symm⟩
    · exact Or.inr ⟨u, List.mem_cons_of_mem t hu, hname⟩

end Reading

/-- The rules of a text are named by identifiers. -/
theorem Declaration.isIdentifier_of_ofText [Platform] {text : List Char} {d : Declaration}
    (h : ofText text = .ok d) : ∀ n ∈ d.ruleNames, IsIdentifier n := by
  intro n hn
  rw [ofText] at h
  cases hscan : TokenList.scan text with
  | error e =>
    rw [hscan] at h
    cases h
  | ok ts =>
    rw [hscan] at h
    obtain ⟨lexemes, hcut, rfl⟩ := IsCut.exists_of_scan hscan
    obtain ⟨⟨declared, stage⟩, hfold, hfinish⟩ := Reading.exists_foldlM_of_read h
    cases stage with
    | between =>
      obtain rfl := Except.ok.inj hfinish
      rcases Reading.exists_of_mem_ruleNames hfold (List.mem_append_left _ hn) with
        hnone | ⟨t, ht, hk, rfl⟩
      · cases hnone
      · exact hcut.isIdentifier_lexeme ht hk
    | _ => cases hfinish

/-! ## 2. Names that are invented -/

theorem Text.isIdentContinue_of_isDigit {c : Char} (h : c.isDigit = true) :
    isIdentContinue c = true := by
  have hfollowers : ∀ k < 10, inRanges followers (48 + k) = true := by decide +kernel
  have hbounds : 48 ≤ c.toNat ∧ c.toNat ≤ 57 := by
    simpa [Char.isDigit, UInt32.le_iff_toNat_le] using h
  rw [isIdentContinue, show c.toNat = 48 + (c.toNat - 48) by omega,
    hfollowers (c.toNat - 48) (by omega), Bool.or_true]

theorem Purpose.exists_stem_eq (p : Purpose) :
    ∃ cs, p.stem.toList = '_' :: cs ∧ cs.all Text.isIdentContinue = true := by
  cases p with
  | group => exact ⟨['_', 'g', 'r', 'p'], rfl, by decide +kernel⟩
  | repetition => exact ⟨['_', 'r', 'e', 'p'], rfl, by decide +kernel⟩
  | option => exact ⟨['_', 'o', 'p', 't'], rfl, by decide +kernel⟩

theorem Purpose.isIdentifier_numbered (p : Purpose) (k : Nat) : IsIdentifier (p.numbered k) := by
  obtain ⟨stem, hstem, hcontinue⟩ := p.exists_stem_eq
  refine ⟨'_', stem ++ Nat.toDigits 10 k, ?_, by decide +kernel, fun c hc => ?_⟩
  · rw [numbered, Text.ofString, String.toList_append, hstem, Nat.toString_eq_repr,
      Nat.toList_repr]
    rfl
  · rcases List.mem_append.1 hc with hc | hc
    · exact List.all_eq_true.1 hcontinue c hc
    · exact Text.isIdentContinue_of_isDigit
        (Nat.isDigit_of_mem_toDigits (by decide) (by decide) hc)

/-! ## 3. Grammars of texts and files -/

/-- The non-terminals that a declaration is lowered to. -/
theorem Bnf.isIdentifier_of_ofDeclaration {d : Declaration} {b : Bnf}
    (h : ofDeclaration d = .ok b) (hd : ∀ n ∈ d.ruleNames, IsIdentifier n) :
    ∀ n ∈ b.nonterminals, IsIdentifier n := by
  intro n hn
  rcases (mem_nonterminals_iff h).1 hn with hrule | hinvented
  · exact hd n hrule
  · obtain ⟨p, k, rfl⟩ := (spells_lowerRules (supplyOf d) d.rules).numbered n hinvented
    exact p.isIdentifier_numbered k

namespace Grammar

theorem mem_nonterminals_iff_of_ofBnf {b : Bnf} {g : Grammar} (h : ofBnf b = .ok g) {n : Name} :
    n ∈ g.catalog.nonterminals ↔ n ∈ b.nonterminals := by
  rw [eq_analyse_of_plain h]
  exact mem_firstOccurrences

section Texts

variable [Platform]

/-- The stages that a text has passed if it gives a grammar. -/
theorem exists_of_ofText {text : List Char} {g : Grammar} (h : ofText text = .ok g) :
    ∃ d b, Declaration.ofText text = .ok d ∧ Bnf.ofDeclaration d = .ok b ∧ ofBnf b = .ok g := by
  simp only [ofText, bnfOfText, declarationOfText] at h
  cases hd : Declaration.ofText text with
  | error e =>
    rw [hd] at h
    cases h
  | ok d =>
    rw [hd] at h
    cases hb : Bnf.ofDeclaration d with
    | error e =>
      simp only [Except.mapError, hb] at h
      cases h
    | ok b =>
      simp only [Except.mapError, hb] at h
      cases hg : ofBnf b with
      | error e =>
        rw [hg] at h
        cases h
      | ok g' =>
        rw [hg] at h
        cases h
        exact ⟨d, b, rfl, hb, hg⟩

/-- **Non-terminals of a text.**  They are identifiers, whether they are declared or invented. -/
theorem isIdentifier_of_ofText {text : List Char} {g : Grammar} (h : ofText text = .ok g) :
    ∀ n ∈ g.catalog.nonterminals, IsIdentifier n := by
  obtain ⟨d, b, hd, hb, hg⟩ := exists_of_ofText h
  intro n hn
  exact Bnf.isIdentifier_of_ofDeclaration hb (Declaration.isIdentifier_of_ofText hd) n
    ((mem_nonterminals_iff_of_ofBnf hg).1 hn)

end Texts

section Files

variable [Platform] {bytes : ByteArray} {g : Grammar}

/-- A file that gives a grammar holds a text that does. -/
theorem exists_of_ofFile (h : ofFile bytes = .ok g) : ∃ text, ofText text = .ok g := by
  rw [ofFile] at h
  cases htext : textOfFile bytes with
  | error e =>
    rw [htext] at h
    cases h
  | ok text =>
    rw [htext] at h
    exact ⟨text, h⟩

theorem wellFormed_of_ofFile (h : ofFile bytes = .ok g) : g.WellFormed := by
  obtain ⟨text, htext⟩ := exists_of_ofFile h
  obtain ⟨d, b, -, -, hg⟩ := exists_of_ofText htext
  exact wellFormed_of_ofBnf hg

theorem isIdentifier_of_ofFile (h : ofFile bytes = .ok g) :
    ∀ n ∈ g.catalog.nonterminals, IsIdentifier n := by
  obtain ⟨text, htext⟩ := exists_of_ofFile h
  exact isIdentifier_of_ofText htext

end Files

end Grammar

end Lookahead
