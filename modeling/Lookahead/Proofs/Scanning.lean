import Lookahead.Proofs.Quoting
import Lookahead.Source.Piece

/-!
# Cutting a spelled text into tokens

A text that was put together from spelled pieces, with gaps between them, is cut into tokens that
say these pieces (`exists_scanFrom_of_isSpaced`).

## 1. One lexeme

`scanFrom` goes on behind a lexeme with the rest of the text.  What is no token is skipped
(`scanFrom_skip`), a token is kept (`scanFrom_token`).

## 2. Gaps

A gap is skipped as a whole, though not in the way in which it was put together: blanks in a row are
one lexeme.  So a single blank is skipped with the same effect as all of them
(`scanFrom_blank`).

## 3. Pieces

A name ends where the text goes on with a character that continues no identifier.  Every gap begins
with such a character, and so does the empty rest of a text (`EndsName`).
-/

namespace Lookahead

open Text (isIdentStart isIdentContinue quotedChars escapeCode quoteFor)
open LexemeClass (isBlank furtherChars? IsQuotedBody)

namespace TokenList

/-! ## 1. One lexeme -/

theorem scanFrom_cons {c : Char} {cs rest : List Char} {cls : LexemeClass}
    (h : furtherChars? c (cs ++ rest) = some (cls, cs.length)) (p : Text.Position) :
    scanFrom p (c :: (cs ++ rest)) =
      (scanFrom (p.advance (c :: cs)) rest).map
        (consLexeme cls (c :: cs) p (p.advance (c :: cs))) := by
  rw [scanFrom, h]
  simp only [List.take_left, List.drop_left]

/-- What is no token is skipped. -/
theorem scanFrom_skip {c : Char} {cs rest : List Char} {cls : LexemeClass}
    (h : furtherChars? c (cs ++ rest) = some (cls, cs.length))
    (hcls : ∀ kind, cls ≠ .token kind) (p : Text.Position) :
    scanFrom p (c :: (cs ++ rest)) = scanFrom (p.advance (c :: cs)) rest := by
  have hid : consLexeme cls (c :: cs) p (p.advance (c :: cs)) = id := by
    funext ts
    cases cls with
    | token kind => exact absurd rfl (hcls kind)
    | _ => rfl
  rw [scanFrom_cons h, hid]
  cases scanFrom (p.advance (c :: cs)) rest <;> rfl

/-- A token is kept. -/
theorem scanFrom_token {c : Char} {cs rest : List Char} {kind : TokenKind}
    (h : furtherChars? c (cs ++ rest) = some (.token kind, cs.length)) (p : Text.Position) :
    scanFrom p (c :: (cs ++ rest)) =
      (scanFrom (p.advance (c :: cs)) rest).map
        (cons ⟨kind, String.ofList (c :: cs), p, (p.advance (c :: cs)).offset⟩) :=
  scanFrom_cons h p

/-! ## 2. Gaps -/

/-- Blanks in a row are skipped. -/
theorem scanFrom_blanks {c : Char} (hc : isBlank c = true) (p : Text.Position)
    (cs : List Char) :
    scanFrom p (c :: cs) =
      scanFrom (p.advance (c :: cs.takeWhile isBlank)) (cs.dropWhile isBlank) := by
  have h : furtherChars? c (cs.takeWhile isBlank ++ cs.dropWhile isBlank) =
      some (.blank, (cs.takeWhile isBlank).length) := by
    unfold furtherChars?
    rw [List.takeWhile_append_dropWhile, if_pos hc]
  have hskip := scanFrom_skip h (by simp) p
  rwa [List.takeWhile_append_dropWhile] at hskip

/-- It makes no difference to skip one of them first. -/
theorem scanFrom_blank {c : Char} (hc : isBlank c = true) (p : Text.Position) (cs : List Char) :
    scanFrom p (c :: cs) = scanFrom (p.next c) cs := by
  rw [scanFrom_blanks hc]
  cases cs with
  | nil => rfl
  | cons d cs =>
    by_cases hd : isBlank d = true
    · rw [scanFrom_blanks hd, List.takeWhile_cons_of_pos hd, List.dropWhile_cons_of_pos hd]
      rfl
    · rw [List.takeWhile_cons_of_neg hd, List.dropWhile_cons_of_neg hd]
      rfl

theorem blockCommentLength?_eq {body : List Char} (h : ¬ ['*', '/'] <:+: body)
    (rest : List Char) :
    LexemeClass.blockCommentLength? (body ++ '*' :: '/' :: rest) = some (body.length + 2) := by
  induction body with
  | nil => rfl
  | cons c body ih =>
    have hc : ¬ (c = '*' ∧ (body ++ '*' :: '/' :: rest).head? = some '/') := by
      rintro ⟨rfl, hhead⟩
      cases body with
      | nil => exact absurd hhead (by simp)
      | cons d body =>
        obtain rfl : d = '/' := by simpa using hhead
        exact h ⟨[], body, rfl⟩
    have hbody : ¬ ['*', '/'] <:+: body := fun hin => h (hin.trans (List.suffix_cons c body).isInfix)
    rw [List.cons_append, LexemeClass.blockCommentLength?, if_neg hc, ih hbody]
    rfl

theorem furtherChars?_lineComment {body : List Char} (h : '\n' ∉ body) (rest : List Char) :
    furtherChars? '/' ('/' :: (body ++ '\n' :: rest)) = some (.comment, body.length + 1) := by
  have htake : (body ++ '\n' :: rest).takeWhile (· ≠ '\n') = body := by
    rw [List.takeWhile_append_of_pos (by simpa using fun c hc => ne_of_mem_of_not_mem hc h)]
    simp
  show some (LexemeClass.comment, _) = _
  rw [htake]

theorem furtherChars?_blockComment {body : List Char} (h : ¬ ['*', '/'] <:+: body)
    (rest : List Char) :
    furtherChars? '/' ('*' :: (body ++ '*' :: '/' :: rest)) = some (.comment, body.length + 3) := by
  show (LexemeClass.blockCommentLength? _).map _ = _
  rw [blockCommentLength?_eq h]
  rfl

/-- A gap is skipped. -/
theorem scanFrom_gap {gap : List Char} (h : IsGap gap) (p : Text.Position) (rest : List Char) :
    scanFrom p (gap ++ rest) = scanFrom (p.advance gap) rest := by
  have hline : ∀ (p : Text.Position) (cs : List Char),
      scanFrom p ('\n' :: cs) = scanFrom (p.next '\n') cs :=
    fun p cs => @scanFrom_skip '\n' [] cs .lineEnd rfl (by simp) p
  induction h generalizing p with
  | nil => rfl
  | blank hc _ ih =>
    rw [List.cons_append, scanFrom_blank hc, ih]
    rfl
  | lineEnd _ ih =>
    rw [List.cons_append, hline, ih]
    rfl
  | @lineComment body cs hb _ ih =>
    have hskip := @scanFrom_skip '/' ('/' :: body) _ _ (furtherChars?_lineComment hb (cs ++ rest))
      (by simp) p
    rw [hline, ih] at hskip
    simpa [Text.Position.advance_append] using hskip
  | @blockComment body cs hb _ ih =>
    have h : furtherChars? '/' ('*' :: (body ++ ['*', '/']) ++ (cs ++ rest)) =
        some (.comment, ('*' :: (body ++ ['*', '/'])).length) := by
      simpa using furtherChars?_blockComment hb (cs ++ rest)
    have hskip := scanFrom_skip h (by simp) p
    rw [ih] at hskip
    simpa [Text.Position.advance_append] using hskip

end TokenList

/-! ## 3. Pieces -/

/-- No name goes on with this text. -/
def EndsName (rest : List Char) : Prop :=
  ∀ c ∈ rest.head?, isIdentContinue c = false

/-- Gaps end names. -/
theorem IsGap.endsName {gap : List Char} (h : IsGap gap) : EndsName gap := by
  have hgap : [' ', '\t', '\x0c', '\n', '/'].any isIdentContinue = false := by decide +kernel
  intro c hc
  refine Bool.eq_false_iff.2 (List.any_eq_false.1 hgap c ?_)
  cases h with
  | nil => cases hc
  | blank hblank _ =>
    obtain rfl := Option.some.inj hc
    simp only [isBlank, Bool.or_eq_true, beq_iff_eq] at hblank
    rcases hblank with (rfl | rfl) | rfl <;> decide
  | lineEnd _ =>
    obtain rfl := Option.some.inj hc
    decide
  | lineComment _ _ =>
    obtain rfl := Option.some.inj hc
    decide
  | blockComment _ _ =>
    obtain rfl := Option.some.inj hc
    decide

/-- Whether the letters of a piece are cut out as a token that says the piece. -/
def Piece.Spellable : Piece → Prop
  | mark kind => ∃ c, LexemeClass.single? c = some kind ∧ kind.spelling = [c]
  | name n => IsIdentifier n
  | literal _ => True

/-- Neither marks nor quotes nor what gaps are made of start an identifier. -/
theorem isIdentStart_eq_false {c : Char} (h : c ∈ ['%', ':', ';', '|', '(', ')', '?', '*', '+',
    ' ', '\t', '\x0c', '\n', '/', '"', '\'']) : isIdentStart c = false := by
  have hany : ['%', ':', ';', '|', '(', ')', '?', '*', '+', ' ', '\t', '\x0c', '\n', '/', '"',
      '\''].any isIdentStart = false := by decide +kernel
  exact Bool.eq_false_iff.2 (List.any_eq_false.1 hany c h)

theorem furtherChars?_single {c : Char} {kind : TokenKind}
    (h : LexemeClass.single? c = some kind) (cs : List Char) :
    furtherChars? c cs = some (.token kind, 0) := by
  have hmem : c ∈ ['%', ':', ';', '|', '(', ')', '?', '*', '+'] := by
    unfold LexemeClass.single? at h
    split at h <;> simp_all
  have hstart : isIdentStart c = false :=
    isIdentStart_eq_false (List.mem_append_left [' ', '\t', '\x0c', '\n', '/', '"', '\''] hmem)
  obtain ⟨hblank, hline, hslash, hdouble, hsingle⟩ : isBlank c = false ∧ c ≠ '\n' ∧ c ≠ '/' ∧
      c ≠ '"' ∧ c ≠ '\'' := by
    simp only [List.mem_cons, List.not_mem_nil, or_false] at hmem
    rcases hmem with rfl | rfl | rfl | rfl | rfl | rfl | rfl | rfl | rfl <;> decide
  unfold furtherChars?
  rw [if_neg (by simp [hblank]), if_neg hline, if_neg hslash, if_neg hdouble, if_neg hsingle,
    if_neg (by simp [hstart]), h]
  rfl

theorem furtherChars?_of_isIdentStart {c : Char} (hc : isIdentStart c = true) (cs : List Char) :
    furtherChars? c cs =
      some (.token .identifier, (cs.takeWhile isIdentContinue).length) := by
  have hne : ∀ d ∈ [' ', '\t', '\x0c', '\n', '/', '"', '\''], c ≠ d := by
    rintro d hd rfl
    have hmem := List.mem_append_right ['%', ':', ';', '|', '(', ')', '?', '*', '+'] hd
    rw [isIdentStart_eq_false hmem] at hc
    cases hc
  have hblank : isBlank c = false := by simp [isBlank, hne]
  unfold furtherChars?
  rw [if_neg (by simp [hblank]), if_neg (hne _ (by simp)), if_neg (hne _ (by simp)),
    if_neg (hne _ (by simp)), if_neg (hne _ (by simp)), if_pos hc]

theorem furtherChars?_identifier {c : Char} {cs rest : List Char} (hc : isIdentStart c = true)
    (hcs : ∀ d ∈ cs, isIdentContinue d = true) (hrest : EndsName rest) :
    furtherChars? c (cs ++ rest) = some (.token .identifier, cs.length) := by
  have htake : (cs ++ rest).takeWhile isIdentContinue = cs := by
    rw [List.takeWhile_append_of_pos hcs]
    cases rest with
    | nil => simp
    | cons d rest => simp [hrest d rfl]
  rw [furtherChars?_of_isIdentStart hc, htake]

theorem quotedLength?_eq {quote : Char} (hq : quote ≠ '\\') {body : List Char}
    (h : IsQuotedBody quote body) (rest : List Char) :
    LexemeClass.quotedLength? quote (body ++ quote :: rest) = some (body.length + 1) := by
  -- behind a character there is always another one, at the latest the closing quote
  have hcons : ∀ cs : List Char, ∃ d ds, cs ++ quote :: rest = d :: ds := fun cs =>
    List.exists_cons_of_ne_nil (by simp)
  induction h with
  | nil => cases rest <;> simp [LexemeClass.quotedLength?]
  | @plain c cs hc hb _ ih =>
    obtain ⟨d, ds, hds⟩ := hcons cs
    rw [List.cons_append, hds, LexemeClass.quotedLength?, if_neg hc, if_neg hb, ← hds, ih]
    rfl
  | @pair c cs _ ih =>
    rw [List.cons_append, List.cons_append, LexemeClass.quotedLength?, if_neg hq.symm, if_pos rfl,
      ih]
    rfl

theorem furtherChars?_quotedChars (s : Text) (rest : List Char) :
    ∃ kind, (kind = .doubleQuoted ∨ kind = .singleQuoted) ∧
      furtherChars? (quoteFor s)
          (s.codes.flatMap (escapeCode (quoteFor s)) ++ [quoteFor s] ++ rest) =
        some (.token kind, (s.codes.flatMap (escapeCode (quoteFor s)) ++ [quoteFor s]).length) := by
  have hbody := fun hq => quotedLength?_eq hq
    (Text.isQuotedBody_flatMap_escapeCode (Text.quoteFor_eq_or s) s.codes) rest
  rw [List.append_assoc, List.singleton_append, List.length_append, List.length_singleton]
  rcases Text.quoteFor_eq_or s with hq | hq <;> rw [hq] at hbody ⊢
  · refine ⟨.singleQuoted, Or.inr rfl, ?_⟩
    show (LexemeClass.quotedLength? _ _).map _ = _
    rw [hbody (by decide)]
    rfl
  · refine ⟨.doubleQuoted, Or.inl rfl, ?_⟩
    show (LexemeClass.quotedLength? _ _).map _ = _
    rw [hbody (by decide)]
    rfl

namespace TokenList

/-- A spelled piece is cut out as a token that says it. -/
theorem exists_scanFrom_spelling [Platform] {piece : Piece} (h : piece.Spellable) {rest : List Char}
    (hrest : EndsName rest) (p : Text.Position) :
    ∃ t : Token, t.piece = piece ∧
      scanFrom p (piece.spelling ++ rest) =
        (scanFrom (p.advance piece.spelling) rest).map (cons t) := by
  cases piece with
  | mark kind =>
    obtain ⟨c, hc, hspelling⟩ := h
    rw [Piece.spelling, hspelling]
    refine ⟨_, ?_, @scanFrom_token c [] rest kind (furtherChars?_single hc _) p⟩
    unfold LexemeClass.single? at hc
    split at hc <;> cases hc <;> rfl
  | name n =>
    obtain ⟨c, cs, rfl, hc, hcs⟩ := h
    rw [Piece.spelling, Text.shown_ofChars, String.toList_ofList]
    refine ⟨_, ?_, scanFrom_token (furtherChars?_identifier hc hcs hrest) p⟩
    exact congrArg Piece.name (Text.ofString_ofList (c :: cs))
  | literal s =>
    obtain ⟨kind, hkind, hfurther⟩ := furtherChars?_quotedChars s rest
    refine ⟨_, ?_, scanFrom_token hfurther p⟩
    have hliteral := Text.literal_quotedChars s
    rw [quotedChars, List.cons_append] at hliteral
    rcases hkind with rfl | rfl <;>
      simp only [Token.piece, String.toList_ofList, hliteral]

/-- Spaced pieces are cut into tokens that say them. -/
theorem exists_scanFrom_of_isSpaced [Platform] {ps : List Piece} {text : List Char} (h : IsSpaced ps text)
    (hps : ∀ p ∈ ps, p.Spellable) {trail : List Char} (ht : IsGap trail) (p : Text.Position) :
    ∃ ts, scanFrom p (text ++ trail) = .ok ts ∧ ts.tokens.map Token.piece = ps := by
  have hend : ∀ p, scanFrom p trail = .ok ⟨[], Token.endAt (p.advance trail)⟩ := fun p => by
    have hskip := scanFrom_gap ht p []
    rw [List.append_nil] at hskip
    rw [hskip, scanFrom]
  induction h generalizing p with
  | nil => exact ⟨_, hend p, rfl⟩
  | single piece =>
    obtain ⟨t, hpiece, hscan⟩ :=
      exists_scanFrom_spelling (hps piece List.mem_cons_self) ht.endsName p
    rw [hend] at hscan
    exact ⟨_, hscan, congrArg (fun q => [q]) hpiece⟩
  | @cons piece q ps gap text hgap hne _ ih =>
    rw [List.forall_mem_cons] at hps
    have hname : EndsName (gap ++ (text ++ trail)) := by
      obtain ⟨c, cs, rfl⟩ := List.exists_cons_of_ne_nil hne
      exact hgap.endsName
    obtain ⟨t, hpiece, hscan⟩ := exists_scanFrom_spelling hps.1 hname p
    obtain ⟨ts, hts, hpieces⟩ := ih hps.2 ((p.advance piece.spelling).advance gap)
    refine ⟨ts.cons t, ?_, by rw [cons, List.map_cons, hpiece, hpieces]⟩
    rw [List.append_assoc, List.append_assoc, hscan, scanFrom_gap hgap, hts]
    rfl

end TokenList

end Lookahead
