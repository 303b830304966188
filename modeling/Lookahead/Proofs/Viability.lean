import Lookahead.Proofs.Places

/-!
# The first wrong token

The end of a text counts as a token here, and tokens are accepted if they are a grammar text and the
end (`IsAccepted`).  Tokens that accepted ones begin with are viable (`IsViable`).

The reader takes one token at a time and never goes back, so it must refuse a token as soon as
nothing that is accepted can go on with it, and may not refuse it before.

## 1. Acceptance

The reader accepts what is accepted (`Reading.isAccepted_append_singleton_iff`): among the tokens it
takes neither the end of a text nor literals without a value.

## 2. Completions

In the middle of a clause there is always a way out: the open parentheses are closed, and then the
clause.  So what has been read is viable (`Reading.HasRead.isViable`).

## 3. Dead ends

If neither a token is taken nor, in its place, the end of the text, then what has been read is not
viable with it (`Reading.not_isViable`).

## 4. Where a semicolon is missing

Inside a clause the reader knows the token that it took last (`Stage.last?`).  The report of a
missing semicolon points behind it.

## 5. The first wrong token

So the token that is reported is the first one that is wrong
(`Declaration.exists_firstWrong_of_ofText`).
-/

namespace Lookahead

open Text (Position)

section

variable [Platform]

/-- What is accepted: a grammar text whose literals have values, and then the end of the text. -/
def IsAccepted (ts : List Token) : Prop :=
  ∃ us close, ts = us ++ [close] ∧ close.kind = .endOfText ∧ IsGrammarText us ∧
    ∀ t ∈ us, t.HasValue

/-- Tokens that accepted ones begin with. -/
def IsViable (ts : List Token) : Prop := ∃ more, IsAccepted (ts ++ more)

theorem IsViable.of_prefix {ts us : List Token} (h : IsViable us) (hbegins : ts <+: us) :
    IsViable ts := by
  obtain ⟨more, hmore⟩ := h
  obtain ⟨rest, rfl⟩ := hbegins
  exact ⟨rest ++ more, by rwa [← List.append_assoc]⟩

/-! ## 1. Acceptance -/

theorem Token.hasValue_of_ne {t : Token} (hd : t.kind ≠ .doubleQuoted)
    (hs : t.kind ≠ .singleQuoted) : t.HasValue :=
  fun h => (h.elim hd hs).elim

namespace Reading

variable {r r' : Reading} {t : Token}

/-- A token that is taken is not the end of the text, and if it is a literal then it has a value. -/
theorem hasValue_of_step (h : r.step t = .ok r') : t.kind ≠ .endOfText ∧ t.HasValue := by
  have hother : ∀ {kind}, t.kind = kind →
      kind ∉ [TokenKind.endOfText, .doubleQuoted, .singleQuoted] →
      t.kind ≠ .endOfText ∧ t.HasValue := by
    rintro kind rfl hk
    simp only [List.mem_cons, List.not_mem_nil, or_false, not_or] at hk
    exact ⟨hk.1, Token.hasValue_of_ne hk.2.1 hk.2.2⟩
  cases moves_of_step h with
  | literal hk hvalue =>
    refine ⟨fun hend => ?_, fun _ => ⟨_, hvalue⟩⟩
    rw [hend] at hk
    exact hk.elim nofun nofun
  | suffix hk =>
    have hkind := TokenKind.mem_of_suffix? hk
    exact hother rfl fun hin => by
      simp only [List.mem_cons, List.not_mem_nil, or_false] at hkind hin
      rcases hkind with hkind | hkind | hkind <;> simp [hkind] at hin
  | percent hk | tokenDirective hk | startDirective hk | terminal hk | closeTokens hk
  | startSymbol hk | closeStart hk | lhs hk | colon hk | name hk | leftParen hk | rightParen hk
  | bar hk | closeRule hk => exact hother hk (by decide)

theorem hasValue_of_foldlM {ts : List Token} (h : ts.foldlM step r = .ok r') :
    ∀ t ∈ ts, t.kind ≠ .endOfText ∧ t.HasValue := by
  induction ts generalizing r with
  | nil => simp
  | cons t ts ih =>
    obtain ⟨r₁, hs, h⟩ := exists_of_foldlM_cons h
    exact List.forall_mem_cons.2 ⟨hasValue_of_step hs, ih h⟩

/-- The tokens that an accepted list has in front of its end are taken, and the end is taken then. -/
theorem exists_of_isAccepted {us : List Token} {close : Token} (h : IsAccepted (us ++ [close])) :
    close.kind = .endOfText ∧
      ∃ r d, us.foldlM step initial = .ok r ∧ r.finish close = .ok d := by
  obtain ⟨vs, last, heq, hkind, ⟨directives, rules, rfl, hd, hr⟩, hvalues⟩ := h
  obtain ⟨rfl, hlast⟩ := List.append_inj' heq rfl
  obtain rfl := List.singleton_inj.1 hlast
  obtain ⟨d, hread, -⟩ :=
    read_isGrammarText hd hr (fun t ht => hvalues t (List.mem_append_right _ ht)) close
  obtain ⟨r, hfold, hfinish⟩ := exists_foldlM_of_read hread
  exact ⟨hkind, r, d, hfold, hfinish⟩

/-- **Acceptance.**  The reader accepts what is accepted, and nothing else. -/
theorem isAccepted_append_singleton_iff {us : List Token} {close : Token} :
    IsAccepted (us ++ [close]) ↔
      close.kind = .endOfText ∧ ∃ d, initial.read close us = .ok d := by
  constructor
  · intro h
    obtain ⟨hkind, r, d, hfold, hfinish⟩ := exists_of_isAccepted h
    refine ⟨hkind, d, ?_⟩
    rw [read_eq, hfold]
    exact hfinish
  · rintro ⟨hkind, d, hread⟩
    obtain ⟨r, hfold, -⟩ := exists_foldlM_of_read hread
    exact ⟨us, close, rfl, hkind, isGrammarText_of_read hread,
      fun t ht => (hasValue_of_foldlM hfold t ht).2⟩

end Reading

/-! ## 2. Completions -/

omit [Platform] in
/-- The open parentheses can be closed. -/
theorem OpenPhrase.closed {n : Nat} {ks : List TokenKind} (h : OpenPhrase n ks) :
    IsPhrase .expression (ks ++ List.replicate n .rightParen) := by
  induction n generalizing ks with
  | zero =>
    cases h with
    | nil h => rwa [List.replicate_zero, List.append_nil]
  | succ n ih =>
    have hclosed := ih h.closing.openPhrase
    rwa [List.append_assoc, List.singleton_append, ← List.replicate_succ] at hclosed

/-- A mark, wherever it is needed. -/
def Token.filler (kind : TokenKind) : Token := ⟨kind, String.ofList kind.spelling, .start, 0⟩

/-- A name that is also the name of a directive. -/
def Token.fillerName : Token := ⟨.identifier, "start", .start, 0⟩

theorem Token.hasValue_filler {kind : TokenKind} (hd : kind ≠ .doubleQuoted)
    (hs : kind ≠ .singleQuoted) : (filler kind).HasValue := hasValue_of_ne hd hs

theorem Token.hasValue_fillerName : fillerName.HasValue := hasValue_of_ne (by decide) (by decide)

namespace Stage.HasRead

open Token (filler fillerName)

variable {stage : Stage} {clause : List Token}

/-- A directive that has been begun can be ended. -/
theorem exists_directive (h : stage.HasRead clause) (hin : stage.InDirective) :
    ∃ more : List Token, (∀ t ∈ more, t.HasValue) ∧
      (IsTokenDirective (clause ++ more) ∨ IsStartDirective (clause ++ more)) := by
  have hname := Token.hasValue_fillerName
  have hsemicolon : (filler .semicolon).HasValue := Token.hasValue_filler (by decide) (by decide)
  cases stage with
  | directive =>
    obtain ⟨percent, rfl, hpercent⟩ := h
    refine ⟨[fillerName, fillerName, filler .semicolon], by simp [hname, hsemicolon], Or.inr ?_⟩
    exact ⟨percent, fillerName, fillerName, filler .semicolon, rfl, hpercent, rfl, rfl, rfl, rfl⟩
  | tokens last =>
    obtain ⟨percent, keyword, names, rfl, hpercent, hkeyword, hword, hnames, -⟩ := h
    refine ⟨[fillerName, filler .semicolon], by simp [hname, hsemicolon], Or.inl ?_⟩
    exact ⟨percent, keyword, names ++ [fillerName], filler .semicolon, by simp, hpercent, hkeyword,
      hword, by simp, List.forall_mem_append.2 ⟨hnames, by simp [fillerName]⟩, rfl⟩
  | start last =>
    obtain ⟨percent, keyword, rfl, hpercent, hkeyword, hword, hlast⟩ := h
    cases last with
    | none =>
      refine ⟨[fillerName, filler .semicolon], by simp [hname, hsemicolon], Or.inr ?_⟩
      exact ⟨percent, keyword, fillerName, filler .semicolon, rfl, hpercent, hkeyword, hword, rfl,
        rfl⟩
    | some name =>
      refine ⟨[filler .semicolon], by simp [hsemicolon], Or.inr ?_⟩
      exact ⟨percent, keyword, name, filler .semicolon, rfl, hpercent, hkeyword, hword,
        hlast name rfl, rfl⟩
  | between | head _ | body _ _ _ _ _ => exact hin.elim

/-- A rule that has been begun can be ended, the open parentheses first. -/
theorem exists_rule (h : stage.HasRead clause) (hin : ¬ stage.InDirective)
    (hne : stage ≠ .between) :
    ∃ more : List Token, (∀ t ∈ more, t.HasValue) ∧ IsRule (clause ++ more) := by
  have hmark : ∀ kind ∈ [TokenKind.colon, .semicolon, .rightParen], (filler kind).HasValue := by
    simp [Token.hasValue_filler]
  cases stage with
  | head name =>
    obtain ⟨rfl, hkind⟩ := h
    refine ⟨[filler .colon, filler .semicolon], by simp [hmark], ?_⟩
    exact ⟨name, filler .colon, [], filler .semicolon, rfl, hkind, rfl, .last .empty, rfl⟩
  | body name last outer level pending =>
    obtain ⟨first, colon, body, rfl, hfirst, hcolon, hbody, -⟩ := h
    let closing := List.replicate outer.length (filler .rightParen)
    refine ⟨closing ++ [filler .semicolon],
      List.forall_mem_append.2 ⟨fun t ht => ?_, by simp [hmark]⟩,
      first, colon, body ++ closing, filler .semicolon, by simp, hfirst, hcolon, ?_, rfl⟩
    · rw [List.eq_of_mem_replicate ht]
      exact hmark _ (by simp)
    · rw [List.map_append, List.map_replicate]
      exact hbody.closed
  | between => exact absurd rfl hne
  | directive | tokens _ | start _ => exact absurd trivial hin

end Stage.HasRead

namespace Reading

variable {r : Reading} {ts : List Token}

/-- What has been read can be completed to a grammar text. -/
theorem HasRead.exists_isGrammarText (h : r.HasRead ts) :
    ∃ more : List Token, (∀ t ∈ more, t.HasValue) ∧ IsGrammarText (ts ++ more) := by
  obtain ⟨directives, rules, clause, rfl, hd, hr, -, hdirective, hclause⟩ := h
  by_cases hin : r.stage.InDirective
  · obtain rfl := hdirective hin
    obtain ⟨more, hvalues, hmore⟩ := hclause.exists_directive hin
    refine ⟨more, hvalues, directives ++ [clause ++ more], [], by simp, ?_, hr⟩
    exact List.forall_mem_append.2 ⟨hd, by simpa using hmore⟩
  · by_cases hbetween : r.stage = .between
    · rw [hbetween] at hclause
      obtain rfl : clause = [] := hclause
      exact ⟨[], by simp, directives, rules, by simp, hd, hr⟩
    · obtain ⟨more, hvalues, hmore⟩ := hclause.exists_rule hin hbetween
      refine ⟨more, hvalues, directives, rules ++ [clause ++ more], by simp, hd, ?_⟩
      exact List.forall_mem_append.2 ⟨hr, by simpa using hmore⟩

/-- **Completions.**  Whatever has been read is viable, if its literals have values. -/
theorem HasRead.isViable (h : r.HasRead ts) (hvalues : ∀ t ∈ ts, t.HasValue) : IsViable ts := by
  obtain ⟨more, hmore, htext⟩ := h.exists_isGrammarText
  exact ⟨more ++ [.endAt .start], ts ++ more, .endAt .start, (List.append_assoc _ _ _).symm, rfl,
    htext, List.forall_mem_append.2 ⟨hvalues, hmore⟩⟩

/-! ## 3. Dead ends -/

/-- **Dead ends.**  A token that is not taken, and is not the end of the text where the text may
end, makes what has been read unviable. -/
theorem not_isViable {t : Token} (hread : ts.foldlM step initial = .ok r)
    (hstep : ∀ r', r.step t ≠ .ok r')
    (hfinish : t.kind = .endOfText → ∀ d, r.finish t ≠ .ok d) : ¬ IsViable (ts ++ [t]) := by
  rintro ⟨more, hmore⟩
  rcases List.eq_nil_or_concat more with rfl | ⟨more, close, rfl⟩
  · -- the token is the end of the text
    rw [List.append_nil] at hmore
    obtain ⟨hkind, r', d, hfold, hclose⟩ := exists_of_isAccepted hmore
    obtain rfl := Except.ok.inj (hread.symm.trans hfold)
    exact hfinish hkind d hclose
  · -- there are more tokens, so the reader has taken it
    rw [List.concat_eq_append, ← List.append_assoc] at hmore
    obtain ⟨-, r', d, hfold, -⟩ := exists_of_isAccepted hmore
    rw [List.append_assoc, foldlM_step_append hread] at hfold
    obtain ⟨r₁, hs, -⟩ := exists_of_foldlM_cons hfold
    exact hstep r₁ hs

end Reading

/-! ## 4. Where a semicolon is missing -/

/-- The token that was taken last, inside a clause that a semicolon can close. -/
def Stage.last? : Stage → Option Token
  | tokens last => last
  | start last => last
  | body _ last .. => some last
  | _ => none

namespace Reading

variable {r r' : Reading} {t : Token}

/-- A step remembers its token, or nothing. -/
theorem eq_of_last?_of_step (h : r.step t = .ok r') : ∀ u ∈ r'.stage.last?, u = t := by
  intro u hu
  cases moves_of_step h with
  | percent | tokenDirective | startDirective | closeTokens | closeStart | lhs | closeRule =>
    cases hu
  | terminal | startSymbol | colon | name | literal | leftParen | rightParen | bar | suffix =>
    exact (Option.some.inj hu).symm

/-- What a run remembers is the last of its tokens. -/
theorem exists_append_of_last? {ts : List Token} (h : ts.foldlM step initial = .ok r) {last : Token}
    (hlast : last ∈ r.stage.last?) : ∃ earlier, ts = earlier ++ [last] := by
  rcases List.eq_nil_or_concat ts with rfl | ⟨earlier, t, rfl⟩
  · cases h
    cases hlast
  · rw [List.concat_eq_append] at h
    obtain ⟨r₁, -, h⟩ := exists_of_foldlM_append h
    obtain ⟨r₂, ht, h⟩ := exists_of_foldlM_cons h
    cases h
    exact ⟨earlier, by rw [List.concat_eq_append, eq_of_last?_of_step ht last hlast]⟩

omit [Platform] in
/-- The report of a missing semicolon points behind the token that was taken last. -/
theorem exists_last?_of_refuse {clause : Clause} {behind : Nat} {found : Token}
    (h : r.refuse t = .missingSemicolon clause behind found) :
    ∃ last ∈ r.stage.last?, behind = last.stop := by
  obtain ⟨d, stage⟩ := r
  cases stage with
  | tokens last =>
    cases last <;> cases h
    exact ⟨_, rfl, rfl⟩
  | start last =>
    cases last <;> cases h
    exact ⟨_, rfl, rfl⟩
  | body name last outer level pending =>
    cases outer <;> cases h
    exact ⟨_, rfl, rfl⟩
  | _ => cases h

end Reading

/-! ## 5. The first wrong token -/

omit [Platform] in
/-- A message about a token names its place. -/
theorem SourceError.Reports.exists_headline {e : SourceError} {t : Token} (h : e.Reports t) :
    ∃ sentence rest, e.headline = sentence ++ " at " ++ t.start.render ++ "\n" ++ rest := by
  have hplace : e.place? = some t.start →
      ∃ sentence rest, e.headline = sentence ++ " at " ++ t.start.render ++ "\n" ++ rest := by
    intro hp
    obtain ⟨sentence, hheadline⟩ := exists_headline_of_place? hp
    exact ⟨sentence, "", by rw [hheadline, String.append_empty]⟩
  obtain ⟨hfound, hoffset⟩ := h
  cases e with
  | unexpectedChar c p => cases hfound
  | noDirective u =>
    cases hfound
    exact hplace rfl
  | unknownDirective u =>
    cases hfound
    exact hplace rfl
  | expected kind u =>
    cases hfound
    exact hplace rfl
  | missingSemicolon clause behind u =>
    cases hfound
    refine ⟨"Missing ';' after " ++ clause.describe ++ " (semicolon is mandatory).\n- Found: " ++
      t.kind.label, "- Example: " ++ clause.specimen ++ "\n\n", ?_⟩
    dsimp only [headline, Token.renderAt]
    simp only [String.append_assoc]
    rfl
  | literal fault u => cases hoffset

/-- **Refusals.**  The tokens in front of the one that is reported are read, and they are viable, but
not together with it. -/
theorem Reading.exists_firstWrong_of_read {ts : TokenList} {e : SourceError}
    (h : initial.read ts.close ts.tokens = .error e) (hclose : ts.close.kind = .endOfText)
    (hkinds : ∀ t ∈ ts.tokens, t.kind ≠ .endOfText) (hvalues : ∀ t ∈ ts.tokens, t.HasValue) :
    ∃ before t after r, ts.toList = before ++ t :: after ∧ before.foldlM step initial = .ok r ∧
      e.Reports t ∧ (e = r.refuse t ∨ e = .unknownDirective t) ∧
      IsViable before ∧ ¬ IsViable (before ++ [t]) := by
  have hviable : ∀ {before r}, before.foldlM step initial = .ok r →
      (∀ u ∈ before, u.HasValue) → IsViable before := fun hread hbefore =>
    (hasRead_initial.foldlM hread).isViable hbefore
  rcases exists_refusal_of_read h with ⟨before, t, after, r, hts, hread, hstep⟩ | ⟨r, hread, hfinish⟩
  · have ht : t ∈ ts.tokens := hts ▸ by simp
    have hbefore : ∀ u ∈ before, u.HasValue := fun u hu => hvalues u (hts ▸ by simp [hu])
    refine ⟨before, t, after ++ [ts.close], r, ?_, hread, reports_of_step hstep (hvalues t ht), ?_,
      hviable hread hbefore, not_isViable hread (fun r' hok => ?_) fun hk => ?_⟩
    · rw [TokenList.toList, hts, List.append_assoc, List.cons_append]
    · rcases refusal_of_step hstep with he | he | ⟨fault, -, hvalue⟩
      · exact Or.inl he
      · exact Or.inr he
      · exact absurd (hvalues t ht) hvalue
    · cases hstep.symm.trans hok
    · exact absurd hk (hkinds t ht)
  · obtain rfl := eq_refuse_of_finish hfinish
    refine ⟨ts.tokens, ts.close, [], r, rfl, hread, reports_refuse r _, Or.inl rfl,
      hviable hread hvalues, not_isViable hread (fun r' hok => ?_) fun _ d hok => ?_⟩
    · exact (hasValue_of_step hok).1 hclose
    · cases hfinish.symm.trans hok

end

namespace Declaration

/-- **The first wrong token.**  Let a text be cut into tokens, let its literals have values, and let
it be refused.  The message names the place of one of the tokens, its end included.  Of the lists
that the tokens begin with, exactly those are viable that do not reach that token, so it is the first
one that is wrong.  Where a semicolon is missing, the caret stands at the end of the token in front
of it. -/
theorem exists_firstWrong_of_ofText [Platform] {text : List Char} {ts : TokenList} {e : SourceError}
    (hscan : TokenList.scan text = .ok ts) (hvalues : ∀ t ∈ ts.tokens, t.HasValue)
    (h : ofText text = .error e) :
    ∃ before t after, ts.toList = before ++ t :: after ∧ e.found? = some t ∧
      (∃ sentence rest, e.headline = sentence ++ " at " ++ t.start.render ++ "\n" ++ rest) ∧
      (e.message? text).isSome ∧
      (∀ us, us <+: ts.toList → (IsViable us ↔ us <+: before)) ∧
      ∀ clause behind found, e = .missingSemicolon clause behind found →
        ∃ (earlier : List Token) (last : Token) (p : Position) (shown : String),
          before = earlier ++ [last] ∧ p.Locates text ∧ p.offset = last.stop ∧
          e.message? text = some (e.headline ++ shown) ∧ p.IsShownBy text shown := by
  obtain ⟨lexemes, hcut, rfl⟩ := IsCut.exists_of_scan hscan
  rw [ofText, hscan] at h
  obtain ⟨before, t, after, r, hts, hread, hreports, hrefuse, hviable, hdead⟩ :=
    Reading.exists_firstWrong_of_read h rfl (fun t ht => hcut.kind_ne_endOfText ht) hvalues
  refine ⟨before, t, after, hts, hreports.1, hreports.exists_headline, ?_, fun us hus => ?_, ?_⟩
  · rw [SourceError.message?, Option.isSome_map]
    exact hreports.2
  · refine ⟨fun hus' => ?_, hviable.of_prefix⟩
    have htoken : before ++ [t] <+: TokenList.toList _ := ⟨after, by rw [hts]; simp⟩
    rcases List.prefix_or_prefix_of_prefix hus htoken with hle | hle
    · rcases List.prefix_concat_iff.1 hle with rfl | hle
      · exact absurd hus' hdead
      · exact hle
    · exact absurd (hus'.of_prefix hle) hdead
  · rintro clause behind found rfl
    have hrefused := hrefuse.resolve_right (by simp)
    obtain ⟨last, hlast, rfl⟩ := Reading.exists_last?_of_refuse hrefused.symm
    obtain ⟨earlier, rfl⟩ := Reading.exists_append_of_last? hread hlast
    have hstands := hcut.standIn.standsIn last (hts ▸ by simp)
    have hp := Text.locates_behind (text.take last.stop) (text.drop last.stop)
    rw [List.take_append_drop] at hp
    have hoffset : (Position.behind (text.take last.stop)).offset = last.stop :=
      List.length_take_of_le hstands.stop_le
    refine ⟨earlier, last, _, _, rfl, hp, hoffset, ?_, hp.isShownBy_ofOffset⟩
    rw [hoffset]
    rfl

/-- The rule of `a` should have ended with the first line.  But as far as the name `c` it could have
gone on, so it is the colon behind `c` that is wrong. -/
theorem exists_firstWrong_of_secondColon :
    letI := Platform.bare
    ∃ before t after, t.start = ⟨5, 2, 2⟩ ∧ IsViable before ∧ ¬ IsViable (before ++ [t]) ∧
      (before ++ t :: after).map Token.piece = [.name "a", .mark .colon, .name "b", .name "c",
        .mark .colon, .name "d", .mark .semicolon, .mark .endOfText] := by
  let colon : Token := ⟨.colon, ":", ⟨5, 2, 2⟩, 6⟩
  let ts : TokenList := ⟨[⟨.identifier, "a", ⟨0, 1, 1⟩, 1⟩, ⟨.colon, ":", ⟨1, 1, 2⟩, 2⟩,
    ⟨.identifier, "b", ⟨2, 1, 3⟩, 3⟩, ⟨.identifier, "c", ⟨4, 2, 1⟩, 5⟩, colon,
    ⟨.identifier, "d", ⟨6, 2, 3⟩, 7⟩, ⟨.semicolon, ";", ⟨7, 2, 4⟩, 8⟩], .endAt ⟨8, 2, 5⟩⟩
  have hscan : TokenList.scan "a:b\nc:d;".toList = .ok ts := by decide +kernel
  let := Platform.bare
  have hvalues : ∀ t ∈ ts.tokens, t.HasValue := by simp [ts, colon, Token.HasValue]
  have hread : ofText "a:b\nc:d;".toList = .error (.missingSemicolon (.rule "a") 5 colon) := by
    rw [ofText, hscan]
    rfl
  obtain ⟨before, t, after, hts, hfound, -, -, hfirst, -⟩ :=
    exists_firstWrong_of_ofText hscan hvalues hread
  obtain rfl : colon = t := Option.some.inj hfound
  refine ⟨before, colon, after, rfl, ?_, ?_, by rw [← hts]; rfl⟩
  · exact (hfirst before (hts ▸ List.prefix_append _ _)).2 (List.prefix_refl _)
  · intro hviable
    have hle := ((hfirst _ ⟨after, by rw [hts, List.append_assoc]; rfl⟩).1 hviable).length_le
    rw [List.length_append] at hle
    exact absurd hle (by simp)

end Declaration

end Lookahead
