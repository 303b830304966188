import Lookahead.Proofs.Readback
import Lookahead.Proofs.Scanning

/-!
# A declaration that is written is read back

A declaration that can be written has many texts.  Each of them is read as this declaration, except
that the places of its parts are now known (`Declaration.exists_ofText_of_isSpaced`).

The proof meets in the middle, at the pieces.  The text is cut into tokens that say the pieces of
the declaration, since all of them can be spelled (`Declaration.Writable.spellable`).  And the reader
makes the declaration of any tokens that say these pieces (`Reading.exists_read_of_pieces`).
-/

namespace Lookahead

/-! ## 1. What is written can be spelled -/

theorem isIdentifier_token : IsIdentifier "token" :=
  ⟨'t', ['o', 'k', 'e', 'n'], by decide, by decide +kernel,
    List.all_eq_true.1 (by decide +kernel)⟩

theorem isIdentifier_start : IsIdentifier "start" :=
  ⟨'s', ['t', 'a', 'r', 't'], by decide, by decide +kernel,
    List.all_eq_true.1 (by decide +kernel)⟩

theorem Suffix.spellable (suffix : Suffix) : ∀ p ∈ suffix.pieces, p.Spellable := by
  cases suffix with
  | optional => exact List.forall_mem_singleton.2 ⟨'?', rfl, rfl⟩
  | star => exact List.forall_mem_singleton.2 ⟨'*', rfl, rfl⟩
  | plus => exact List.forall_mem_singleton.2 ⟨'+', rfl, rfl⟩
  | _ => exact fun p hp => absurd hp List.not_mem_nil

namespace Expr

mutual

theorem spellable_atomPieces (a : Atom) (h : AtomWritable a) :
    ∀ p ∈ atomPieces a, p.Spellable := by
  match a with
  | .leaf (.name n) suffix _ =>
    exact List.forall_mem_append.2 ⟨List.forall_mem_singleton.2 h.1, suffix.spellable⟩
  | .leaf (.literal t) suffix _ =>
    exact List.forall_mem_append.2 ⟨List.forall_mem_singleton.2 trivial, suffix.spellable⟩
  | .leaf .unknown suffix _ => exact h.elim
  | .group alternatives suffix _ =>
    rw [AtomWritable] at h
    rw [atomPieces, List.forall_mem_cons, List.forall_mem_append, List.forall_mem_cons]
    exact ⟨⟨'(', rfl, rfl⟩, spellable_pieces alternatives h.2.1, ⟨')', rfl, rfl⟩,
      suffix.spellable⟩

theorem spellable_sequencePieces (as : List Atom) (h : SequenceWritable as) :
    ∀ p ∈ sequencePieces as, p.Spellable := by
  match as with
  | [] => exact fun p hp => absurd hp List.not_mem_nil
  | a :: as =>
    rw [SequenceWritable] at h
    exact List.forall_mem_append.2 ⟨spellable_atomPieces a h.1, spellable_sequencePieces as h.2⟩

theorem spellable_restPieces (e : List (List Atom)) (h : Writable e) :
    ∀ p ∈ restPieces e, p.Spellable := by
  match e with
  | [] => exact fun p hp => absurd hp List.not_mem_nil
  | alternative :: rest =>
    rw [Writable] at h
    rw [restPieces, List.forall_mem_cons, List.forall_mem_append]
    exact ⟨⟨'|', rfl, rfl⟩, spellable_sequencePieces alternative h.1,
      spellable_restPieces rest h.2⟩

theorem spellable_pieces (e : List (List Atom)) (h : Writable e) :
    ∀ p ∈ pieces e, p.Spellable := by
  match e with
  | [] => exact fun p hp => absurd hp List.not_mem_nil
  | alternative :: rest =>
    rw [Writable] at h
    exact List.forall_mem_append.2 ⟨spellable_sequencePieces alternative h.1,
      spellable_restPieces rest h.2⟩

end

mutual

theorem AtomWritable.readable (a : Atom) (h : AtomWritable a) : AtomReadable a := by
  match a with
  | .leaf (.name n) suffix _ => exact ⟨by simp, h.2⟩
  | .leaf (.literal t) suffix _ => exact ⟨by simp, h⟩
  | .leaf .unknown suffix _ => exact h.elim
  | .group alternatives suffix _ =>
    rw [AtomWritable] at h
    rw [AtomReadable]
    exact ⟨h.1, Writable.readable alternatives h.2.1, h.2.2⟩

theorem SequenceWritable.readable (as : List Atom) (h : SequenceWritable as) :
    SequenceReadable as := by
  match as with
  | [] => trivial
  | a :: as =>
    rw [SequenceWritable] at h
    exact ⟨AtomWritable.readable a h.1, SequenceWritable.readable as h.2⟩

/-- What can be written is what the reader can produce, with names that are identifiers. -/
theorem Writable.readable (e : List (List Atom)) (h : Writable e) : Readable e := by
  match e with
  | [] => trivial
  | alternative :: rest =>
    rw [Writable] at h
    exact ⟨SequenceWritable.readable alternative h.1, Writable.readable rest h.2⟩

end

end Expr

namespace Declaration

variable {d : Declaration}

theorem Writable.spellable_directivePieces (h : d.Writable) :
    ∀ p ∈ d.directivePieces, p.Spellable := by
  have hpercent : (Piece.mark .percent).Spellable := ⟨'%', rfl, rfl⟩
  have hsemicolon : (Piece.mark .semicolon).Spellable := ⟨';', rfl, rfl⟩
  rw [directivePieces, List.forall_mem_append]
  constructor
  · split
    · exact fun p hp => absurd hp List.not_mem_nil
    · simp only [List.forall_mem_cons, List.forall_mem_append, List.forall_mem_map]
      exact ⟨hpercent, isIdentifier_token, h.tokens, hsemicolon, by simp⟩
  · split
    · rename_i s hs
      simp only [List.forall_mem_cons]
      exact ⟨hpercent, isIdentifier_start, h.start s hs, hsemicolon, by simp⟩
    · exact fun p hp => absurd hp List.not_mem_nil

/-- All pieces of a declaration that can be written can be spelled. -/
theorem Writable.spellable (h : d.Writable) : ∀ p ∈ d.pieces, p.Spellable := by
  rw [pieces, List.forall_mem_append]
  refine ⟨h.spellable_directivePieces, fun p hp => ?_⟩
  obtain ⟨r, hr, hp⟩ := List.mem_flatMap.1 hp
  obtain ⟨hname, -, hbody⟩ := h.rules r hr
  have hrule : ∀ q ∈ r.pieces, q.Spellable := by
    rw [Rule.pieces, List.forall_mem_cons, List.forall_mem_cons, List.forall_mem_append]
    exact ⟨hname, ⟨':', rfl, rfl⟩, Expr.spellable_pieces r.body hbody,
      List.forall_mem_singleton.2 ⟨';', rfl, rfl⟩⟩
  exact hrule p hp

end Declaration

/-! ## 2. What is written is read back -/

namespace Reading

variable [Platform]

theorem names_of_pieces {ns : List Name} {ts : List Token}
    (h : ts.map Token.piece = ns.map Piece.name) :
    (∀ t ∈ ts, t.kind = .identifier) ∧ ts.map (·.name) = ns := by
  induction ns generalizing ts with
  | nil =>
    obtain rfl := List.map_eq_nil_iff.1 h
    exact ⟨by simp, rfl⟩
  | cons n ns ih =>
    obtain ⟨t, ts, rfl, ht, hts⟩ := List.map_eq_cons_iff.1 h
    obtain ⟨hk, rfl⟩ := t.kind_of_piece_name ht
    obtain ⟨hkinds, hnames⟩ := ih hts
    exact ⟨List.forall_mem_cons.2 ⟨hk, hkinds⟩, by rw [List.map_cons, hnames]⟩

theorem tokenDirective_of_pieces {ns : List Name} (hne : ns ≠ []) {ts : List Token}
    (h : ts.map Token.piece =
      .mark .percent :: .name "token" :: (ns.map .name ++ [.mark .semicolon])) :
    IsTokenDirective ts ∧ declaredTokens ts = ns := by
  obtain ⟨percent, ts, rfl, hpercent, h⟩ := List.map_eq_cons_iff.1 h
  obtain ⟨keyword, ts, rfl, hkeyword, h⟩ := List.map_eq_cons_iff.1 h
  obtain ⟨names, ts, rfl, hnames, h⟩ := List.map_eq_append_iff.1 h
  obtain ⟨semicolon, rfl, hsemicolon⟩ := List.map_eq_singleton_iff.1 h
  obtain ⟨hkeyword, hword⟩ := keyword.kind_of_piece_name hkeyword
  replace hword := Text.ofString_injective hword
  obtain ⟨hkinds, rfl⟩ := names_of_pieces hnames
  refine ⟨⟨percent, keyword, names, semicolon, rfl, percent.kind_of_piece_mark hpercent, hkeyword,
    hword, fun hempty => hne (by rw [hempty]; rfl), hkinds,
    semicolon.kind_of_piece_mark hsemicolon⟩, ?_⟩
  rw [declaredTokens, if_pos hword, List.dropLast_concat]

theorem startDirective_of_pieces {s : Name} {ts : List Token}
    (h : ts.map Token.piece = [.mark .percent, .name "start", .name s, .mark .semicolon]) :
    IsStartDirective ts ∧ declaredStart? ts = some s := by
  obtain ⟨percent, ts, rfl, hpercent, h⟩ := List.map_eq_cons_iff.1 h
  obtain ⟨keyword, ts, rfl, hkeyword, h⟩ := List.map_eq_cons_iff.1 h
  obtain ⟨name, ts, rfl, hname, h⟩ := List.map_eq_cons_iff.1 h
  obtain ⟨semicolon, rfl, hsemicolon⟩ := List.map_eq_singleton_iff.1 h
  obtain ⟨hkeyword, hword⟩ := keyword.kind_of_piece_name hkeyword
  replace hword := Text.ofString_injective hword
  obtain ⟨hident, rfl⟩ := name.kind_of_piece_name hname
  refine ⟨⟨percent, keyword, name, semicolon, rfl, percent.kind_of_piece_mark hpercent, hkeyword,
    hword, hident, semicolon.kind_of_piece_mark hsemicolon⟩, ?_⟩
  rw [declaredStart?, if_pos hword]

/-- The directives of a declaration are followed. -/
theorem read_directivePieces {d : Declaration} {ts : List Token}
    (h : ts.map Token.piece = d.directivePieces) :
    ts.foldlM step initial = .ok ⟨⟨d.tokens, [], d.start⟩, .between⟩ := by
  obtain ⟨us, vs, rfl, hus, hvs⟩ := List.map_eq_append_iff.1 h
  have htokens : us.foldlM step initial = .ok ⟨⟨d.tokens, [], none⟩, .between⟩ := by
    split at hus
    · rename_i hempty
      obtain rfl := List.map_eq_nil_iff.1 hus
      rw [List.isEmpty_iff.1 hempty]
      rfl
    · rename_i hempty
      obtain ⟨hdirective, hdeclared⟩ :=
        tokenDirective_of_pieces (fun h => hempty (List.isEmpty_iff.2 h)) hus
      rw [initial, read_tokenDirective hdirective rfl, hdeclared, List.nil_append]
  rw [foldlM_step_append htokens]
  split at hvs
  · rename_i s hs
    obtain ⟨hdirective, hdeclared⟩ := startDirective_of_pieces hvs
    rw [read_startDirective hdirective rfl, hdeclared, hs, Option.some_or]
  · rename_i hs
    obtain rfl := List.map_eq_nil_iff.1 hvs
    rw [hs]
    rfl

/-- Tokens that say the pieces of a declaration are read as the declaration, places aside. -/
theorem exists_read_of_pieces {d : Declaration} (hd : d.Writable) {ts : List Token}
    (hts : ts.map Token.piece = d.pieces) (close : Token) :
    ∃ d', initial.read close ts = .ok d' ∧ d'.withoutSpans = d.withoutSpans := by
  obtain ⟨us, vs, rfl, hus, hvs⟩ := List.map_eq_append_iff.1 hts
  obtain ⟨rules, hread, hrules⟩ := read_rules
    (fun r hr => ⟨(hd.rules r hr).2.1, (hd.rules r hr).2.2.readable⟩) hvs ⟨d.tokens, [], d.start⟩
  have hall := (foldlM_step_append (read_directivePieces hus) vs).trans hread
  refine ⟨_, read_of_foldlM hall close, ?_⟩
  -- where there are rules, the start symbol is declared
  have hstart : d.start.or (rules.map (·.name)).head? = d.start := by
    cases hs : d.start with
    | some s => rfl
    | none =>
      rw [hd.start_of_rules hs] at hrules
      obtain rfl := List.map_eq_nil_iff.1 hrules
      rfl
  rw [Declaration.withoutSpans, Declaration.withoutSpans, ← hrules]
  simp only [Declaration.ruleNames, List.nil_append, hstart]

end Reading

namespace Declaration

/-- **A declaration that is written is read back.**  Let a declaration be written in pieces, and the
pieces be spelled with gaps between them, none of which is empty; there may be gaps in front and
behind as well.  Then the text is read as the declaration, up to places. -/
theorem exists_ofText_of_isSpaced [Platform] {d : Declaration} (hd : d.Writable)
    {lead text trail : List Char} (hlead : IsGap lead) (htext : IsSpaced d.pieces text)
    (htrail : IsGap trail) :
    ∃ d', ofText (lead ++ text ++ trail) = .ok d' ∧ d'.withoutSpans = d.withoutSpans := by
  obtain ⟨ts, hscan, hpieces⟩ := TokenList.exists_scanFrom_of_isSpaced htext hd.spellable htrail
    (Text.Position.start.advance lead)
  have hscan : TokenList.scan (lead ++ text ++ trail) = .ok ts := by
    rw [TokenList.scan, List.append_assoc, TokenList.scanFrom_gap hlead, hscan]
  obtain ⟨d', hread, hspans⟩ := Reading.exists_read_of_pieces hd hpieces ts.close
  refine ⟨d', ?_, hspans⟩
  rw [ofText, hscan]
  exact hread

/-- A rule with a literal that holds a quote, an empty alternative, and comments that hold quotes. -/
theorem exists_ofText_of_comments :
    let d : Declaration := ⟨[], [⟨"s", [[.leaf (.literal "'") .star none], []], none⟩], some "s"⟩
    ∃ d', @ofText .bare "% start s ; s :/* ' */\"'\" * |//\"\n;".toList = .ok d' ∧
      d'.withoutSpans = d.withoutSpans := by
  intro d
  have hs : IsIdentifier "s" := ⟨'s', [], rfl, by decide +kernel, by simp⟩
  have hd : d.Writable := by
    refine ⟨by simp [d], ?_, by simpa [d] using hs, by simp [d]⟩
    exact List.forall_mem_singleton.2 ⟨hs, by simp, ⟨by simp [Expr.AtomWritable], trivial⟩,
      trivial, trivial⟩
  have hblank : IsGap [' '] := .blank rfl .nil
  have hblock := @IsGap.blockComment [' ', '\'', ' '] [] (by decide) .nil
  have hline := @IsGap.lineComment ['"'] [] (by decide) .nil
  obtain ⟨text, htext, heq⟩ : ∃ text, IsSpaced d.pieces text ∧
      text = "% start s ; s :/* ' */\"'\" * |//\"\n;".toList :=
    ⟨_, .cons hblank (by simp) (.cons hblank (by simp) (.cons hblank (by simp)
      (.cons hblank (by simp) (.cons hblank (by simp) (.cons hblock (by simp)
      (.cons hblank (by simp) (.cons hblank (by simp) (.cons hline (by simp) (.single _))))))))),
      by decide +kernel⟩
  have hread := @exists_ofText_of_isSpaced .bare d hd [] text [] .nil htext .nil
  rwa [List.nil_append, List.append_nil, heq] at hread

end Declaration

end Lookahead
