import Lookahead.Proofs.Scanning
import Lookahead.Source.Pattern
import Mathlib.Data.List.TakeWhile

/-!
# Cutting a text into lexemes

The scanner looks at the first characters of a text and then runs along it; what a lexeme is, on the
other hand, is said without running (`IsLexeme`).

## 1. Stretches of one class

What the scanner takes along is a lexeme of the class that it says
(`exists_isLexeme_of_furtherChars?`).

## 2. The longest stretch

Conversely, if a text begins with some lexeme, then the scanner takes one of the same class, and no
shorter one (`exists_furtherChars?_of_isLexeme`).  So the scanner takes the next lexeme, and where it
finds none there is none.

## 3. Cuts

Hence every text has exactly one cut (`exists_isCut`, `IsCut.unique`), and the scanner makes it.  If
nothing is left, then it finds the tokens (`IsCut.scan_eq_ok`), and otherwise it refuses the first
character of the rest, at its place (`IsCut.scan_eq_error`).
-/

namespace Lookahead

namespace LexemeClass

/-! ## 1. Stretches of one class -/

theorem exists_body_of_blockCommentLength? {cs : List Char} {n : Nat}
    (h : blockCommentLength? cs = some n) :
    ∃ body rest, cs = body ++ ['*', '/'] ++ rest ∧ n = body.length + 2 ∧
      ¬ ['*', '/'] <:+: body := by
  induction cs generalizing n with
  | nil => cases h
  | cons c cs ih =>
    rw [blockCommentLength?] at h
    split at h
    · rename_i hclose
      obtain ⟨rfl, hslash⟩ := hclose
      obtain ⟨rest, rfl⟩ := List.head?_eq_some_iff.1 hslash
      obtain rfl := Option.some.inj h
      exact ⟨[], rest, rfl, rfl, by simp⟩
    · rename_i hclose
      obtain ⟨m, hm, rfl⟩ := Option.map_eq_some_iff.1 h
      obtain ⟨body, rest, rfl, rfl, hbody⟩ := ih hm
      refine ⟨c :: body, rest, rfl, rfl, fun hin => ?_⟩
      -- the end of the comment does not begin before the character, and not with it
      rcases List.infix_cons_iff.1 hin with hbegins | hin
      · obtain ⟨more, hmore⟩ := hbegins
        obtain ⟨rfl, rfl⟩ := List.cons.inj hmore
        exact hclose ⟨rfl, rfl⟩
      · exact hbody hin

theorem exists_body_of_quotedLength? {quote : Char} {cs : List Char} {n : Nat}
    (h : quotedLength? quote cs = some n) :
    ∃ body rest, cs = body ++ [quote] ++ rest ∧ n = body.length + 1 ∧
      IsQuotedBody quote body := by
  fun_induction quotedLength? quote cs generalizing n with
  | case1 => cases h
  | case2 => exact ⟨[], [], rfl, (Option.some.inj h).symm, .nil⟩
  | case3 => cases h
  | case4 d cs => exact ⟨[], d :: cs, rfl, (Option.some.inj h).symm, .nil⟩
  | case5 d cs hquote ih =>
    obtain ⟨m, hm, rfl⟩ := Option.map_eq_some_iff.1 h
    obtain ⟨body, rest, rfl, rfl, hbody⟩ := ih hm
    exact ⟨'\\' :: d :: body, rest, rfl, rfl, .pair d hbody⟩
  | case6 c d cs hquote hescape ih =>
    obtain ⟨m, hm, rfl⟩ := Option.map_eq_some_iff.1 h
    obtain ⟨body, rest, hcs, rfl, hbody⟩ := ih hm
    exact ⟨c :: body, rest, by rw [hcs]; rfl, rfl, .plain hquote hescape hbody⟩

theorem exists_body_of_quoted {quote : Char} {cs : List Char} {kind : TokenKind}
    {cls : LexemeClass} {n : Nat}
    (h : (quotedLength? quote cs).map (token kind, ·) = some (cls, n)) :
    ∃ body rest, cs = body ++ [quote] ++ rest ∧ (body ++ [quote]).length = n ∧
      token kind = cls ∧ IsQuotedBody quote body := by
  obtain ⟨m, hm, hpair⟩ := Option.map_eq_some_iff.1 h
  obtain ⟨rfl, rfl⟩ := Prod.mk.inj hpair
  obtain ⟨body, rest, hcs, rfl, hbody⟩ := exists_body_of_quotedLength? hm
  exact ⟨body, rest, hcs, by rw [List.length_append, List.length_singleton], rfl, hbody⟩

/-- What the scanner takes along is a lexeme of the class that it says. -/
theorem exists_isLexeme_of_furtherChars? {c : Char} {cs : List Char} {cls : LexemeClass} {n : Nat}
    (h : furtherChars? c cs = some (cls, n)) :
    ∃ ds rest, cs = ds ++ rest ∧ ds.length = n ∧ IsLexeme cls (c :: ds) := by
  unfold furtherChars? at h
  split at h
  next hblank =>
    obtain ⟨rfl, rfl⟩ := Prod.mk.inj (Option.some.inj h)
    refine ⟨_, _, List.takeWhile_append_dropWhile.symm, rfl, .blank ?_⟩
    exact List.forall_mem_cons.2 ⟨hblank, fun d hd => List.mem_takeWhile_imp hd⟩
  split at h
  next hline =>
    obtain ⟨rfl, rfl⟩ := Prod.mk.inj (Option.some.inj h)
    exact ⟨[], cs, rfl, rfl, hline ▸ .lineEnd⟩
  split at h
  next hslash =>
    subst hslash
    split at h
    · rename_i cs
      obtain ⟨rfl, rfl⟩ := Prod.mk.inj (Option.some.inj h)
      refine ⟨'/' :: cs.takeWhile (· ≠ '\n'), cs.dropWhile (· ≠ '\n'), ?_, rfl, .lineComment ?_⟩
      · rw [List.cons_append, List.takeWhile_append_dropWhile]
      · exact fun hin => by simpa using List.mem_takeWhile_imp hin
    · obtain ⟨m, hm, hpair⟩ := Option.map_eq_some_iff.1 h
      obtain ⟨rfl, rfl⟩ := Prod.mk.inj hpair
      obtain ⟨body, rest, rfl, rfl, hbody⟩ := exists_body_of_blockCommentLength? hm
      refine ⟨'*' :: (body ++ ['*', '/']), rest, by simp, by simp, .blockComment hbody⟩
    · cases h
  split at h
  next hdouble =>
    obtain ⟨body, rest, hcs, hlength, rfl, hbody⟩ := exists_body_of_quoted h
    subst hdouble
    exact ⟨_, rest, hcs, hlength, .doubleQuoted hbody⟩
  split at h
  next hsingle =>
    obtain ⟨body, rest, hcs, hlength, rfl, hbody⟩ := exists_body_of_quoted h
    subst hsingle
    exact ⟨_, rest, hcs, hlength, .singleQuoted hbody⟩
  split at h
  next hstart =>
    obtain ⟨rfl, rfl⟩ := Prod.mk.inj (Option.some.inj h)
    refine ⟨_, _, List.takeWhile_append_dropWhile.symm, rfl, .identifier hstart ?_⟩
    exact fun d hd => List.mem_takeWhile_imp hd
  obtain ⟨kind, hkind, hpair⟩ := Option.map_eq_some_iff.1 h
  obtain ⟨rfl, rfl⟩ := Prod.mk.inj hpair
  exact ⟨[], cs, rfl, rfl, .single hkind⟩

/-! ## 2. The longest stretch -/

theorem length_le_takeWhile_append {α : Type} {q : α → Bool} {ds : List α}
    (h : ∀ d ∈ ds, q d = true) (rest : List α) :
    ds.length ≤ ((ds ++ rest).takeWhile q).length := by
  rw [List.takeWhile_append_of_pos h, List.length_append]
  exact Nat.le_add_right _ _

theorem IsLexeme.exists_cons {cls : LexemeClass} {cs : List Char} (h : IsLexeme cls cs) :
    ∃ d ds, cs = d :: ds := by
  cases h <;> exact ⟨_, _, rfl⟩

/-- No lexeme is the end of a text. -/
theorem IsLexeme.kind_ne_endOfText {kind : TokenKind} {cs : List Char}
    (h : IsLexeme (.token kind) cs) : kind ≠ .endOfText := by
  rintro rfl
  cases h with
  | single h =>
    unfold single? at h
    split at h <;> cases h

/-- If a text begins with a lexeme, then the scanner takes one of the same class along, and at least
as much. -/
theorem exists_furtherChars?_of_isLexeme {c : Char} {ds : List Char} {cls : LexemeClass}
    (h : IsLexeme cls (c :: ds)) (rest : List Char) :
    ∃ n, furtherChars? c (ds ++ rest) = some (cls, n) ∧ ds.length ≤ n := by
  cases h with
  | blank hblank =>
    rw [List.forall_mem_cons] at hblank
    refine ⟨_, ?_, length_le_takeWhile_append hblank.2 rest⟩
    unfold furtherChars?
    rw [if_pos hblank.1]
  | lineEnd => exact ⟨0, rfl, Nat.le_refl 0⟩
  | @lineComment ds hline =>
    refine ⟨_, rfl, Nat.succ_le_succ (length_le_takeWhile_append (fun d hd => ?_) rest)⟩
    simpa using ne_of_mem_of_not_mem hd hline
  | @blockComment body hbody =>
    exact ⟨body.length + 3, by simpa using TokenList.furtherChars?_blockComment hbody rest, by simp⟩
  | single hkind => exact ⟨0, furtherChars?_single hkind _, Nat.le_refl 0⟩
  | @doubleQuoted body hbody =>
    refine ⟨body.length + 1, ?_, by simp⟩
    show (quotedLength? '"' (body ++ ['"'] ++ rest)).map _ = _
    rw [List.append_assoc, List.singleton_append, quotedLength?_eq (by decide) hbody]
    rfl
  | @singleQuoted body hbody =>
    refine ⟨body.length + 1, ?_, by simp⟩
    show (quotedLength? '\'' (body ++ ['\''] ++ rest)).map _ = _
    rw [List.append_assoc, List.singleton_append, quotedLength?_eq (by decide) hbody]
    rfl
  | identifier hstart hcontinue =>
    exact ⟨_, furtherChars?_of_isIdentStart hstart _, length_le_takeWhile_append hcontinue rest⟩

theorem exists_furtherChars?_of_prefix {c : Char} {cs ds : List Char} {cls : LexemeClass}
    (h : IsLexeme cls ds) (hbegins : ds <+: c :: cs) :
    ∃ n, furtherChars? c cs = some (cls, n) ∧ ds.length ≤ n + 1 := by
  obtain ⟨d, ds, rfl⟩ := h.exists_cons
  obtain ⟨rest, hrest⟩ := hbegins
  obtain ⟨rfl, rfl⟩ := List.cons.inj hrest
  obtain ⟨n, hn, hle⟩ := exists_furtherChars?_of_isLexeme h rest
  exact ⟨n, hn, Nat.succ_le_succ hle⟩

/-- What the scanner takes is the next lexeme. -/
theorem exists_isNextLexeme_of_furtherChars? {c : Char} {cs : List Char} {cls : LexemeClass}
    {n : Nat} (h : furtherChars? c cs = some (cls, n)) :
    ∃ ds rest, cs = ds ++ rest ∧ ds.length = n ∧ IsNextLexeme cls (c :: ds) rest := by
  obtain ⟨ds, rest, rfl, hlength, hlexeme⟩ := exists_isLexeme_of_furtherChars? h
  refine ⟨ds, rest, rfl, hlength, hlexeme, fun cls' es hes hbegins => ?_⟩
  obtain ⟨m, hm, hle⟩ := exists_furtherChars?_of_prefix hes hbegins
  obtain ⟨rfl, rfl⟩ := Prod.mk.inj (Option.some.inj (hm.symm.trans h))
  exact ⟨rfl, by rwa [List.length_cons, hlength]⟩

/-- Conversely, it takes the next lexeme. -/
theorem IsNextLexeme.furtherChars?_eq {c : Char} {ds rest : List Char} {cls : LexemeClass}
    (h : IsNextLexeme cls (c :: ds) rest) :
    furtherChars? c (ds ++ rest) = some (cls, ds.length) := by
  obtain ⟨n, hn, hle⟩ := exists_furtherChars?_of_isLexeme h.1 rest
  obtain ⟨es, rest', hes, rfl, hlexeme⟩ := exists_isLexeme_of_furtherChars? hn
  have hbegins : c :: es <+: c :: ds ++ rest :=
    ⟨rest', by rw [List.cons_append, List.cons_append, hes]⟩
  have hlonger := (h.2 cls (c :: es) hlexeme hbegins).2
  rw [hn, Nat.le_antisymm (Nat.le_of_succ_le_succ hlonger) hle]

/-- The scanner stops where no lexeme begins. -/
theorem furtherChars?_eq_none_iff {c : Char} {cs : List Char} :
    furtherChars? c cs = none ↔ ¬ BeginsLexeme (c :: cs) := by
  constructor
  · rintro h ⟨cls, ds, hds, hbegins⟩
    obtain ⟨n, hn, -⟩ := exists_furtherChars?_of_prefix hds hbegins
    cases hn.symm.trans h
  · intro h
    rcases hf : furtherChars? c cs with _ | ⟨cls, n⟩
    · rfl
    · obtain ⟨ds, rest, rfl, -, hlexeme⟩ := exists_isLexeme_of_furtherChars? hf
      exact absurd ⟨cls, c :: ds, hlexeme, ⟨rest, rfl⟩⟩ h

theorem not_beginsLexeme_nil : ¬ BeginsLexeme [] := by
  rintro ⟨cls, ds, hds, hbegins⟩
  obtain ⟨d, ds, rfl⟩ := hds.exists_cons
  simp at hbegins

end LexemeClass

/-! ## 3. Cuts -/

open LexemeClass

/-- Every text has a cut. -/
theorem exists_isCut (text : List Char) : ∃ lexemes rest, IsCut text lexemes rest := by
  induction hn : text.length using Nat.strong_induction_on generalizing text with
  | _ n ih =>
    subst hn
    cases text with
    | nil => exact ⟨[], [], .stop not_beginsLexeme_nil⟩
    | cons c cs =>
      rcases hf : furtherChars? c cs with _ | ⟨cls, n⟩
      · exact ⟨[], _, .stop (furtherChars?_eq_none_iff.1 hf)⟩
      · obtain ⟨ds, text, rfl, -, hnext⟩ := exists_isNextLexeme_of_furtherChars? hf
        have hlt : text.length < (c :: (ds ++ text)).length := by
          rw [List.length_cons, List.length_append]
          omega
        obtain ⟨lexemes, rest, hcut⟩ := ih _ hlt text rfl
        exact ⟨_, rest, .cons hnext hcut⟩

namespace IsCut

/-- Nothing of the text is lost. -/
theorem append_eq {text rest : List Char} {lexemes : List Lexeme} (h : IsCut text lexemes rest) :
    lexemes.flatMap Lexeme.chars ++ rest = text := by
  induction h with
  | stop => rfl
  | cons _ _ ih => rw [List.flatMap_cons, List.append_assoc, ih]

/-- No text has two cuts. -/
theorem unique {text rest rest' : List Char} {lexemes lexemes' : List Lexeme}
    (h : IsCut text lexemes rest) (h' : IsCut text lexemes' rest') :
    lexemes = lexemes' ∧ rest = rest' := by
  induction h generalizing lexemes' with
  | stop h =>
    cases h' with
    | stop => exact ⟨rfl, rfl⟩
    | cons hnext => exact absurd ⟨_, _, hnext.1, List.prefix_append _ _⟩ h
  | @cons cls cs text rest lexemes hnext _ ih =>
    generalize htext : cs ++ text = whole at h'
    cases h' with
    | stop h => exact absurd ⟨cls, cs, hnext.1, htext ▸ List.prefix_append _ _⟩ h
    | @cons cls' cs' text' _ lexemes' hnext' hcut' =>
      have hle := hnext.2 cls' cs' hnext'.1 (htext ▸ List.prefix_append _ _)
      have hge := hnext'.2 cls cs hnext.1 (htext.symm ▸ List.prefix_append _ _)
      obtain ⟨rfl, rfl⟩ := List.append_inj htext (Nat.le_antisymm hge.2 hle.2)
      obtain ⟨rfl, rfl⟩ := ih hcut'
      exact ⟨by rw [hle.1], rfl⟩

open TokenList

theorem scanFrom_cons_tokens {cls : LexemeClass} {cs text : List Char}
    (h : IsNextLexeme cls cs text) (before : List Char) :
    scanFrom (.behind before) (cs ++ text) =
      (scanFrom (.behind (before ++ cs)) text).map fun ts =>
        ⟨((⟨cls, cs⟩ : Lexeme).token? before).toList ++ ts.tokens, ts.close⟩ := by
  obtain ⟨c, cs, rfl⟩ := h.1.exists_cons
  rw [List.cons_append, scanFrom_cons h.furtherChars?_eq, Text.Position.advance_behind]
  congr 1
  funext ts
  cases cls <;> rfl

theorem scanFrom_eq_ok {text rest before : List Char} {lexemes : List Lexeme}
    (h : IsCut text lexemes rest) (hrest : rest = []) :
    scanFrom (.behind before) text =
      .ok ⟨tokensBehind before lexemes, Token.endAt (.behind (before ++ text))⟩ := by
  induction h generalizing before with
  | stop =>
    rw [hrest, scanFrom, List.append_nil]
    rfl
  | cons hnext _ ih =>
    rw [scanFrom_cons_tokens hnext, ih hrest, List.append_assoc]
    rfl

theorem scanFrom_eq_error {text rest before cs : List Char} {lexemes : List Lexeme} {c : Char}
    (h : IsCut text lexemes rest) (hrest : rest = c :: cs) :
    scanFrom (.behind before) text =
      .error (c, .behind (before ++ lexemes.flatMap Lexeme.chars)) := by
  induction h generalizing before with
  | stop h =>
    subst hrest
    rw [scanFrom, furtherChars?_eq_none_iff.2 h, List.flatMap_nil, List.append_nil]
  | cons hnext _ ih =>
    rw [scanFrom_cons_tokens hnext, ih hrest, List.flatMap_cons, ← List.append_assoc]
    rfl

/-- If nothing is left, then the tokens are found. -/
theorem scan_eq_ok {text : List Char} {lexemes : List Lexeme} (h : IsCut text lexemes []) :
    scan text = .ok ⟨tokensBehind [] lexemes, Token.endAt (.behind text)⟩ :=
  @scanFrom_eq_ok text [] [] lexemes h rfl

/-- Otherwise the first character of the rest is refused. -/
theorem scan_eq_error {text cs : List Char} {lexemes : List Lexeme} {c : Char}
    (h : IsCut text lexemes (c :: cs)) :
    scan text = .error (c, .behind (lexemes.flatMap Lexeme.chars)) :=
  @scanFrom_eq_error text (c :: cs) [] cs lexemes c h rfl

end IsCut

end Lookahead
