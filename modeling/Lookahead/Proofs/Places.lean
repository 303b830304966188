import Lookahead.Proofs.Acceptance
import Lookahead.Proofs.Lexemes

/-!
# Places

Places are counted along the text, lexeme by lexeme, and a lexeme may run over several lines.  An
excerpt is found in another way, from an offset alone.  Both agree.

## 1. The place behind a text

Counting gives the place that `Position.Locates` describes, however the text goes on
(`locates_behind`).

## 2. Excerpts

The excerpt at a place shows the line of the text that has the number of the place, and the caret
stands as far to the right as the column says (`Position.Locates.isShownBy_ofOffset`).

## 3. Tokens

The tokens among lexemes stand at their places (`Token.StandsIn`), one behind the other, and what
they say is cut out of the text.

## 4. The scanner, exactly

So every text is cut, and its tokens or the first character that is left are found at their places;
and what a message shows is the line that it speaks of (`exists_isCut_scan`).
-/

namespace Lookahead

namespace Text

/-! ## 1. The place behind a text -/

/-- The place behind a stretch of text is one of the whole text. -/
theorem locates_behind (cs rest : List Char) : (Position.behind cs).Locates (cs ++ rest) := by
  let line := (cs.reverse.takeWhile (· ≠ '\n')).reverse
  let earlier := (cs.reverse.dropWhile (· ≠ '\n')).reverse
  have hcs : cs = earlier ++ line := by
    rw [← List.reverse_append, List.takeWhile_append_dropWhile, List.reverse_reverse]
  have hline : '\n' ∉ line := fun hin => by
    simpa using List.mem_takeWhile_imp (List.mem_reverse.1 hin)
  have hearlier : earlier = [] ∨ ['\n'] <:+ earlier := by
    have hhead := List.head?_dropWhile_not (· ≠ '\n') cs.reverse
    rcases hrest : cs.reverse.dropWhile (· ≠ '\n') with _ | ⟨d, ds⟩
    · exact Or.inl (congrArg List.reverse hrest)
    · rw [hrest] at hhead
      obtain rfl : d = '\n' := by simpa using hhead
      exact Or.inr ⟨ds.reverse, by rw [← List.reverse_cons, ← hrest]⟩
  have hcount : cs.count '\n' = earlier.count '\n' := by
    rw [hcs, List.count_append, List.count_eq_zero.2 hline, Nat.add_zero]
  refine ⟨earlier, line, rest, by rw [← hcs], hearlier, hline, ?_⟩
  rw [Position.behind, hcount, ← hcs, List.length_reverse]

/-! ## 2. Excerpts -/

theorem length_splitOn (d : Char) (cs : List Char) :
    (cs.splitOn d).length = cs.count d + 1 := by
  induction cs with
  | nil => rfl
  | cons c cs ih =>
    rw [List.splitOn_cons_eq_if_modifyHead, List.count_cons]
    split
    · rw [List.length_cons, ih]
    · rw [List.length_modifyHead, ih]

theorem head?_splitOn (d : Char) (cs : List Char) :
    (cs.splitOn d).head? = some (cs.takeWhile (· ≠ d)) := by
  induction cs with
  | nil => rfl
  | cons c cs ih =>
    rw [List.splitOn_cons_eq_if_modifyHead]
    split
    · rename_i hc
      rw [beq_iff_eq.1 hc, List.takeWhile_cons_of_neg (by simp)]
      rfl
    · rename_i hc
      rw [List.head?_modifyHead, ih, List.takeWhile_cons_of_pos (by simpa using hc)]
      rfl

/-- The lines of a text, counted from the beginning of one of them. -/
theorem getElem?_splitOn_append {earlier : List Char}
    (h : earlier = [] ∨ ['\n'] <:+ earlier) (rest : List Char) :
    ((earlier ++ rest).splitOn '\n')[earlier.count '\n']? =
      some (rest.takeWhile (· ≠ '\n')) := by
  rcases h with rfl | ⟨before, rfl⟩
  · rw [List.nil_append, List.count_nil, ← List.head?_eq_getElem?, head?_splitOn]
  · have hlength : (before ++ ['\n']).count '\n' = (before.splitOn '\n').length := by
      rw [length_splitOn, List.count_append]
      rfl
    rw [List.append_assoc, List.singleton_append, List.splitOn_append_cons_self, hlength,
      List.getElem?_append_right (Nat.le_refl _), Nat.sub_self, ← List.head?_eq_getElem?,
      head?_splitOn]

/-- The excerpt at a place shows it. -/
theorem Position.Locates.isShownBy_ofOffset {p : Position} {text : List Char}
    (h : p.Locates text) : p.IsShownBy text (Excerpt.ofOffset text p.offset).render := by
  obtain ⟨earlier, line, after, rfl, hearlier, hline, rfl⟩ := h
  have hpos : ∀ c ∈ line, (decide (c ≠ '\n')) = true := fun c hc => by
    simpa using ne_of_mem_of_not_mem hc hline
  have hbefore : ((earlier ++ line).reverse.takeWhile (· ≠ '\n')).reverse = line := by
    rw [List.reverse_append, List.takeWhile_append_of_pos fun c hc => hpos c (List.mem_reverse.1 hc)]
    rcases hearlier with rfl | ⟨before, rfl⟩
    · simp
    · simp
  refine ⟨line ++ after.takeWhile (· ≠ '\n'), ?_, ?_⟩
  · rw [List.append_assoc, Nat.add_sub_cancel, getElem?_splitOn_append hearlier,
      List.takeWhile_append_of_pos hpos]
  · rw [Excerpt.ofOffset, List.take_left, List.drop_left, hbefore]
    rfl

end Text

open Text (Position)

/-! ## 3. Tokens -/

/-- The token stands in the text: its place is one of the text, and its letters are what stands
there. -/
structure Token.StandsIn (t : Token) (text : List Char) : Prop where
  locates : t.start.Locates text
  start_le : t.start.offset ≤ t.stop
  stop_le : t.stop ≤ text.length
  letters : t.lexeme.toList = (text.take t.stop).drop t.start.offset

theorem Token.standsIn_endAt (text : List Char) :
    (Token.endAt (.behind text)).StandsIn text where
  locates := by
    have h := Text.locates_behind text []
    rwa [List.append_nil] at h
  start_le := Nat.le_refl _
  stop_le := Nat.le_refl _
  letters := by
    show [] = (text.take text.length).drop text.length
    rw [List.take_length, List.drop_length]

namespace Lexeme

variable {before : List Char} {l : Lexeme} {t : Token}

theorem start_of_token? (h : l.token? before = some t) : t.start = .behind before := by
  unfold token? at h
  split at h <;> cases h
  rfl

theorem cls_of_token? (h : l.token? before = some t) : l.cls = .token t.kind := by
  unfold token? at h
  split at h <;> cases h
  assumption

theorem stop_of_token? (h : l.token? before = some t) :
    t.stop = (before ++ l.chars).length := by
  unfold token? at h
  split at h <;> cases h
  rfl

theorem toList_lexeme_of_token? (h : l.token? before = some t) : t.lexeme.toList = l.chars := by
  unfold token? at h
  split at h <;> cases h
  exact String.toList_ofList

theorem standsIn_of_token? (h : l.token? before = some t) (rest : List Char) :
    t.StandsIn (before ++ l.chars ++ rest) := by
  have hoffset : t.start.offset = before.length := by
    rw [start_of_token? h]
    rfl
  have hstop := stop_of_token? h
  refine ⟨?_, ?_, ?_, ?_⟩
  · rw [start_of_token? h, List.append_assoc]
    exact Text.locates_behind before _
  · rw [hstop, hoffset, List.length_append]
    exact Nat.le_add_right _ _
  · rw [hstop]
    exact (List.prefix_append _ rest).length_le
  · rw [hstop, List.take_left, hoffset, List.drop_left, toList_lexeme_of_token? h]

end Lexeme

section Tokens

variable {before : List Char} {lexemes : List Lexeme} {t : Token}

/-- A token is one of the lexemes. -/
theorem exists_token?_of_mem (h : t ∈ tokensBehind before lexemes) :
    ∃ earlier l later, lexemes = earlier ++ l :: later ∧
      l.token? (before ++ earlier.flatMap Lexeme.chars) = some t := by
  induction lexemes generalizing before with
  | nil => cases h
  | cons l lexemes ih =>
    rw [tokensBehind, List.mem_append, Option.mem_toList] at h
    rcases h with h | h
    · exact ⟨[], l, lexemes, rfl, by rwa [List.flatMap_nil, List.append_nil]⟩
    · obtain ⟨earlier, m, later, rfl, hm⟩ := ih h
      refine ⟨l :: earlier, m, later, rfl, ?_⟩
      rwa [List.flatMap_cons, ← List.append_assoc]

theorem length_le_start_of_mem (h : t ∈ tokensBehind before lexemes) :
    before.length ≤ t.start.offset := by
  obtain ⟨earlier, l, later, -, hl⟩ := exists_token?_of_mem h
  rw [Lexeme.start_of_token? hl]
  exact (List.prefix_append _ _).length_le

/-- Each token ends before the next one begins. -/
theorem pairwise_tokensBehind (before : List Char) (lexemes : List Lexeme) :
    (tokensBehind before lexemes).Pairwise fun t u => t.stop ≤ u.start.offset := by
  induction lexemes generalizing before with
  | nil => exact List.Pairwise.nil
  | cons l lexemes ih =>
    refine List.pairwise_append.2 ⟨?_, ih _, fun t ht u hu => ?_⟩
    · cases l.token? before <;> simp
    · rw [Lexeme.stop_of_token? (Option.mem_toList.1 ht)]
      exact length_le_start_of_mem hu

theorem standsIn_of_mem (h : t ∈ tokensBehind before lexemes) :
    t.StandsIn (before ++ lexemes.flatMap Lexeme.chars) := by
  obtain ⟨earlier, l, later, rfl, hl⟩ := exists_token?_of_mem h
  simpa using Lexeme.standsIn_of_token? hl (later.flatMap Lexeme.chars)

/-- What is between two places is not nothing. -/
theorem start_lt_stop_of_mem (h : t ∈ tokensBehind before lexemes)
    (hne : ∀ l ∈ lexemes, l.chars ≠ []) : t.start.offset < t.stop := by
  obtain ⟨earlier, l, later, rfl, hl⟩ := exists_token?_of_mem h
  have hpos : 0 < l.chars.length := List.length_pos_iff.2 (hne l (by simp))
  rw [Lexeme.start_of_token? hl, Lexeme.stop_of_token? hl, List.length_append]
  exact Nat.lt_add_of_pos_right hpos

end Tokens

namespace IsCut

variable {text rest : List Char} {lexemes : List Lexeme}

theorem isLexeme_of_mem (h : IsCut text lexemes rest) :
    ∀ l ∈ lexemes, LexemeClass.IsLexeme l.cls l.chars := by
  induction h with
  | stop => simp
  | cons hnext _ ih => exact List.forall_mem_cons.2 ⟨hnext.1, ih⟩

theorem chars_ne_nil_of_mem (h : IsCut text lexemes rest) : ∀ l ∈ lexemes, l.chars ≠ [] := by
  intro l hl
  obtain ⟨c, cs, hcs⟩ := (h.isLexeme_of_mem l hl).exists_cons
  rw [hcs]
  exact List.cons_ne_nil c cs

/-- The end of a text is not among its tokens. -/
theorem kind_ne_endOfText (h : IsCut text lexemes rest) {before : List Char} {t : Token}
    (ht : t ∈ tokensBehind before lexemes) : t.kind ≠ .endOfText := by
  obtain ⟨earlier, l, later, rfl, hl⟩ := exists_token?_of_mem ht
  have hlexeme := h.isLexeme_of_mem l (by simp)
  rw [Lexeme.cls_of_token? hl] at hlexeme
  exact hlexeme.kind_ne_endOfText

end IsCut

/-! ## 4. The scanner, exactly -/

/-- The tokens of a text, with what is said of all of them at once: they stand in the text, one
behind the other, and none but the end of the text is empty. -/
structure TokenList.StandIn (ts : TokenList) (text : List Char) : Prop where
  standsIn : ∀ t ∈ ts.toList, t.StandsIn text
  pairwise : ts.toList.Pairwise fun t u => t.stop ≤ u.start.offset
  start_lt : ∀ t ∈ ts.tokens, t.start.offset < t.stop
  close_eq : ts.close = Token.endAt (.behind text)

theorem IsCut.standIn {text : List Char} {lexemes : List Lexeme} (h : IsCut text lexemes []) :
    TokenList.StandIn ⟨tokensBehind [] lexemes, Token.endAt (.behind text)⟩ text where
  standsIn := by
    have htext : lexemes.flatMap Lexeme.chars = text := by
      rw [← h.append_eq, List.append_nil]
    refine List.forall_mem_append.2 ⟨fun t ht => ?_, by simpa using Token.standsIn_endAt text⟩
    exact htext ▸ standsIn_of_mem ht
  pairwise := by
    refine List.pairwise_append.2 ⟨pairwise_tokensBehind _ _, by simp, fun t ht u hu => ?_⟩
    have htext : lexemes.flatMap Lexeme.chars = text := by
      rw [← h.append_eq, List.append_nil]
    rw [List.mem_singleton.1 hu]
    exact htext ▸ (standsIn_of_mem ht).stop_le
  start_lt t ht := start_lt_stop_of_mem ht h.chars_ne_nil_of_mem
  close_eq := rfl

/-- A scanned text has tokens only. -/
theorem IsCut.exists_of_scan {text : List Char} {ts : TokenList}
    (h : TokenList.scan text = .ok ts) :
    ∃ lexemes, IsCut text lexemes [] ∧ ts = ⟨tokensBehind [] lexemes, Token.endAt (.behind text)⟩ := by
  obtain ⟨lexemes, rest, hcut⟩ := exists_isCut text
  cases rest with
  | nil =>
    rw [hcut.scan_eq_ok] at h
    exact ⟨lexemes, hcut, (Except.ok.inj h).symm⟩
  | cons c cs =>
    rw [hcut.scan_eq_error] at h
    cases h

namespace SourceError

/-- The place that the message names right in front of the excerpt. -/
def place? : SourceError → Option Position
  | unexpectedChar _ p => some p
  | noDirective t => some t.start
  | unknownDirective t => some t.start
  | expected _ t => some t.start
  | missingSemicolon .. => none
  | literal .. => none

theorem offset?_of_place? {e : SourceError} {p : Position} (h : e.place? = some p) :
    e.offset? = some p.offset := by
  cases e <;> cases h <;> rfl

theorem exists_headline_of_place? {e : SourceError} {p : Position} (h : e.place? = some p) :
    ∃ sentence, e.headline = sentence ++ " at " ++ p.render ++ "\n" := by
  cases e with
  | unexpectedChar c q =>
    obtain rfl := Option.some.inj h
    refine ⟨"Unexpected char " ++ Text.quoted c.toString, ?_⟩
    dsimp only [headline]
  | unknownDirective t =>
    obtain rfl := Option.some.inj h
    refine ⟨"Unknown directive %" ++ t.lexeme, ?_⟩
    dsimp only [headline]
  | noDirective t =>
    obtain rfl := Option.some.inj h
    refine ⟨"Expected directive name after '%', got " ++ t.kind.label, ?_⟩
    dsimp only [headline, Token.renderAt]
    simp only [String.append_assoc]
  | expected kind t =>
    obtain rfl := Option.some.inj h
    refine ⟨"Expected " ++ kind.label ++ ", got " ++ t.kind.label, ?_⟩
    dsimp only [headline, Token.renderAt]
    simp only [String.append_assoc]
  | missingSemicolon clause behind t => cases h
  | literal fault t => cases h

/-- It is the place of the token that the fault is about. -/
theorem start_eq_of_place? {e : SourceError} {p : Position} {t : Token} (h : e.place? = some p)
    (ht : e.found? = some t) : t.start = p := by
  cases e <;> cases ht <;> cases h <;> rfl

end SourceError

/-- Places in messages are places of the text. -/
theorem Declaration.locates_of_place? [Platform] {text : List Char} {e : SourceError} {p : Position}
    (h : ofText text = .error e) (hp : e.place? = some p) : p.Locates text := by
  obtain ⟨lexemes, rest, hcut⟩ := exists_isCut text
  cases rest with
  | cons c cs =>
    rw [ofText, hcut.scan_eq_error] at h
    obtain rfl := Except.error.inj h
    obtain rfl := Option.some.inj hp
    exact hcut.append_eq ▸ Text.locates_behind _ _
  | nil =>
    rw [ofText, hcut.scan_eq_ok] at h
    obtain ⟨t, ht, hfound⟩ := Reading.found_of_read h
    exact SourceError.start_eq_of_place? hp hfound ▸ (hcut.standIn.standsIn t ht).locates

/-- Such a message ends with the place and with what shows it. -/
theorem Declaration.exists_message?_of_place? [Platform] {text : List Char} {e : SourceError}
    {p : Position} (h : ofText text = .error e) (hp : e.place? = some p) :
    ∃ sentence shown, e.message? text = some (sentence ++ " at " ++ p.render ++ "\n" ++ shown) ∧
      p.IsShownBy text shown := by
  obtain ⟨sentence, hheadline⟩ := SourceError.exists_headline_of_place? hp
  refine ⟨sentence, _, ?_, (locates_of_place? h hp).isShownBy_ofOffset⟩
  rw [SourceError.message?, SourceError.offset?_of_place? hp, Option.map_some, hheadline]

/-- **The scanner, exactly.**  Every text is cut into lexemes in one way, and nothing of it is lost.
If nothing is left, then the tokens are the lexemes of a token class, and with the end of the text
they stand in the text one behind the other.  If something is left, then its first character is
refused, at its place.  And a message of a place shows the line of the place with the caret under
its column. -/
theorem exists_isCut_scan [Platform] (text : List Char) :
    ∃ lexemes rest, IsCut text lexemes rest ∧
      (∀ lexemes' rest', IsCut text lexemes' rest' → lexemes' = lexemes ∧ rest' = rest) ∧
      lexemes.flatMap Lexeme.chars ++ rest = text ∧
      (rest = [] → ∃ ts, TokenList.scan text = .ok ts ∧ ts.tokens = tokensBehind [] lexemes ∧
        ts.StandIn text) ∧
      (∀ c cs, rest = c :: cs → ∃ p, TokenList.scan text = .error (c, p) ∧
        Declaration.ofText text = .error (.unexpectedChar c p) ∧
        p.offset = (lexemes.flatMap Lexeme.chars).length ∧ p.Locates text) ∧
      ∀ e p, Declaration.ofText text = .error e → e.place? = some p →
        p.Locates text ∧ ∃ sentence shown,
          e.message? text = some (sentence ++ " at " ++ p.render ++ "\n" ++ shown) ∧
            p.IsShownBy text shown := by
  obtain ⟨lexemes, rest, hcut⟩ := exists_isCut text
  refine ⟨lexemes, rest, hcut, fun lexemes' rest' h => h.unique hcut, hcut.append_eq, ?_, ?_,
    fun e p h hp => ⟨Declaration.locates_of_place? h hp,
      Declaration.exists_message?_of_place? h hp⟩⟩
  · rintro rfl
    exact ⟨_, hcut.scan_eq_ok, rfl, hcut.standIn⟩
  · rintro c cs rfl
    have hscan := hcut.scan_eq_error
    refine ⟨_, hscan, ?_, rfl, hcut.append_eq ▸ Text.locates_behind _ _⟩
    rw [Declaration.ofText, hscan]

/-- The third line of a text begins inside a comment, and its last character is refused. -/
theorem exists_message?_of_thirdLine :
    ∃ sentence, (SourceError.unexpectedChar '$' ⟨9, 3, 5⟩).message? "a\n/*\n */ $".toList =
      some (sentence ++ " at " ++ Position.render ⟨9, 3, 5⟩ ++ "\n" ++ " */ $\n    ^") := by
  have hscan : TokenList.scan "a\n/*\n */ $".toList = .error ('$', ⟨9, 3, 5⟩) := by
    decide +kernel
  have hread : @Declaration.ofText .bare "a\n/*\n */ $".toList =
      .error (.unexpectedChar '$' ⟨9, 3, 5⟩) := by
    unfold Declaration.ofText
    rw [hscan]
  obtain ⟨lexemes, rest, -, -, -, -, -, hmessage⟩ := @exists_isCut_scan .bare "a\n/*\n */ $".toList
  obtain ⟨-, sentence, shown, hshown, line, hline, rfl⟩ := hmessage _ _ hread rfl
  obtain rfl : " */ $".toList = line := Option.some.inj hline
  exact ⟨sentence, hshown⟩

end Lookahead
