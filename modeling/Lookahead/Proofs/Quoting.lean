import Lookahead.Source.Pattern
import Lookahead.Text.Literal
import Lookahead.Text.Quoted

/-!
# A quoted text denotes itself

Messages quote names, and the grammar language reads quoted literals.  What `quotedChars` writes,
`literal` reads back, for every text (`literal_quotedChars`).

## 1. Digits

A character that cannot be shown is written by its number.  The digits of a numeral are letters and
decimal digits, so none of them ends a literal or starts an escape.

## 2. One code point

Whatever follows, the written form of a code point is read as this code point, on every platform
(`unescape_escapeCode`).  This holds for either quote.

## 3. A whole text

No null character, no line end and no quote stands free between the quotes.  So the text between
them is the inside of a literal (`isQuotedBody_flatMap_escapeCode`), and nothing is refused.
-/

namespace Lookahead.Text

open LexemeClass (IsQuotedBody)

/-! ## 1. Digits -/

/-- The digits of a numeral have values below the base. -/
theorem exists_digitChar_of_mem_numeral {base width n : Nat} (hb : 0 < base) {c : Char}
    (h : c ∈ numeral base width n) : ∃ d < base, c = digitChar d := by
  induction width generalizing n with
  | zero => exact absurd h List.not_mem_nil
  | succ width ih =>
    rw [numeral] at h
    rcases List.mem_append.1 h with h | h
    · exact ih h
    · exact ⟨n % base, Nat.mod_lt n hb, List.mem_singleton.1 h⟩

/-- No hexadecimal digit means anything in a literal. -/
theorem notMem_of_mem_numeral {width n : Nat} {c : Char} (h : c ∈ numeral 16 width n) :
    c ∉ ['\'', '"', '\\', '\x00', '\r'] := by
  obtain ⟨d, hd, rfl⟩ := exists_digitChar_of_mem_numeral (by decide) h
  have hall : ∀ e : Fin 16, digitChar e ∉ ['\'', '"', '\\', '\x00', '\r'] := by decide
  exact hall ⟨d, hd⟩

theorem numberedCode?_numeral {width : Nat} {c : CodePoint} (h : c.val < Nat.pow 16 width)
    (rest : List Char) : numberedCode? width (numeral 16 width c.val ++ rest) = some c := by
  have htake : (numeral 16 width c.val ++ rest).take width = numeral 16 width c.val :=
    List.take_left' (length_numeral ..)
  rw [numberedCode?, htake, if_pos (length_numeral ..),
    numeralValue?_numeral (by decide) (by decide) width _ h, Option.bind_some,
    CodePoint.ofNat?_val]

/-! ## 2. One code point -/

section

variable [Platform]

theorem unescape_cons {c : Char} (hb : c ≠ '\\') (hn : c ≠ '\n') (cs : List Char) :
    unescape (c :: cs) = (unescape cs).map (.ofChar c :: ·) := by
  cases cs with
  | nil => simp [unescape, hb, hn]
  | cons d cs => rw [unescape, if_neg hb, if_neg hn]

/-- An escape of some length that denotes one code point. -/
theorem unescape_of_escape? {c : CodePoint} {d : Char} {ds rest : List Char}
    (h : escape? d (ds ++ rest) = some ([c], ds.length)) :
    unescape ('\\' :: d :: (ds ++ rest)) = (unescape rest).map (c :: ·) := by
  rw [unescape, if_pos rfl, h, Option.bind_some, List.drop_left]
  rfl

/-- An escape of one letter. -/
theorem unescape_letter {c d : Char} (h : letterEscape? d = some c) (rest : List Char) :
    unescape ('\\' :: d :: rest) = (unescape rest).map (.ofChar c :: ·) := by
  have hescape : escape? d ([] ++ rest) = some ([.ofChar c], 0) := by rw [escape?, h]
  exact unescape_of_escape? hescape

/-- An escape by number. -/
theorem unescape_numeral {c : CodePoint} {d : Char} {width : Nat}
    (hd : ∀ cs, escape? d cs = (numberedCode? width cs).map ([·], width))
    (h : c.val < Nat.pow 16 width) (rest : List Char) :
    unescape ('\\' :: d :: (numeral 16 width c.val ++ rest)) =
      (unescape rest).map (c :: ·) := by
  refine unescape_of_escape? ?_
  rw [hd, numberedCode?_numeral h, length_numeral]
  rfl

/-- The written form of a character is read as the character. -/
theorem unescape_escape {quote : Char} (hq : quote = '\'' ∨ quote = '"') (c : Char)
    (rest : List Char) :
    unescape (escape quote c ++ rest) = (unescape rest).map (.ofChar c :: ·) := by
  unfold escape
  by_cases hquote : c = quote ∨ c = '\\'
  · have hmem : c = '\\' ∨ c = '\'' ∨ c = '"' := by
      rcases hquote with rfl | hc
      · exact Or.inr hq
      · exact Or.inl hc
    rw [if_pos hquote]
    exact unescape_letter (by rw [letterEscape?, if_pos hmem]) rest
  rw [if_neg hquote]
  by_cases hline : c = '\n'
  · rw [if_pos hline, hline]
    exact unescape_letter rfl rest
  rw [if_neg hline]
  by_cases hreturn : c = '\r'
  · rw [if_pos hreturn, hreturn]
    exact unescape_letter rfl rest
  rw [if_neg hreturn]
  by_cases htab : c = '\t'
  · rw [if_pos htab, htab]
    exact unescape_letter rfl rest
  rw [if_neg htab]
  by_cases hprint : isPrintable c = true
  · rw [if_pos hprint]
    exact unescape_cons (fun h => hquote (Or.inr h)) hline rest
  rw [if_neg hprint]
  by_cases hx : c.toNat < 0x100
  · have htwo : (CodePoint.ofChar c).val < Nat.pow 16 2 := hx
    rw [if_pos hx]
    exact unescape_numeral (fun _ => rfl) htwo rest
  rw [if_neg hx]
  by_cases hu : c.toNat < 0x10000
  · have hfour : (CodePoint.ofChar c).val < Nat.pow 16 4 := hu
    rw [if_pos hu]
    exact unescape_numeral (fun _ => rfl) hfour rest
  rw [if_neg hu]
  have height : (CodePoint.ofChar c).val < Nat.pow 16 8 :=
    Nat.lt_trans (CodePoint.ofChar c).isLt (by decide)
  exact unescape_numeral (fun _ => rfl) height rest

/-- The written form of a code point is read as the code point. -/
theorem unescape_escapeCode {quote : Char} (hq : quote = '\'' ∨ quote = '"') (c : CodePoint)
    (rest : List Char) :
    unescape (escapeCode quote c ++ rest) = (unescape rest).map (c :: ·) := by
  unfold escapeCode
  split
  · rename_i d hd
    rw [CodePoint.eq_ofChar_of_char? hd]
    exact unescape_escape hq d rest
  · rename_i hnone
    have hfour : c.val < Nat.pow 16 4 := CodePoint.lt_of_char?_eq_none hnone
    exact unescape_numeral (fun _ => rfl) hfour rest

theorem unescape_flatMap_escapeCode {quote : Char} (hq : quote = '\'' ∨ quote = '"')
    (cs : List CodePoint) : unescape (cs.flatMap (escapeCode quote)) = some cs := by
  induction cs with
  | nil => simp [unescape]
  | cons c cs ih => rw [List.flatMap_cons, unescape_escapeCode hq, ih, Option.map_some]

end

/-! ## 3. A whole text -/

theorem isQuotedBody_append {quote : Char} {cs ds : List Char} (h : IsQuotedBody quote cs)
    (h' : IsQuotedBody quote ds) : IsQuotedBody quote (cs ++ ds) := by
  induction h with
  | nil => exact h'
  | plain hq hb _ ih => exact .plain hq hb ih
  | pair c _ ih => exact .pair c ih

theorem isQuotedBody_of_forall {quote : Char} {cs : List Char}
    (h : ∀ c ∈ cs, c ≠ quote ∧ c ≠ '\\') : IsQuotedBody quote cs := by
  induction cs with
  | nil => exact .nil
  | cons c cs ih =>
    rw [List.forall_mem_cons] at h
    exact .plain h.1.1 h.1.2 (ih h.2)

theorem isQuotedBody_numeral {quote : Char} (hq : quote = '\'' ∨ quote = '"') (width n : Nat) :
    IsQuotedBody quote (numeral 16 width n) := by
  refine isQuotedBody_of_forall fun c hc => ?_
  have hnot := notMem_of_mem_numeral hc
  simp only [List.mem_cons, List.not_mem_nil, or_false, not_or] at hnot
  rcases hq with rfl | rfl
  · exact ⟨hnot.1, hnot.2.2.1⟩
  · exact ⟨hnot.2.1, hnot.2.2.1⟩

/-- The written form of a character can stand in a literal. -/
theorem isQuotedBody_escape {quote : Char} (hq : quote = '\'' ∨ quote = '"') (c : Char) :
    IsQuotedBody quote (escape quote c) := by
  unfold escape
  split
  · exact .pair c .nil
  rename_i hquote
  rw [not_or] at hquote
  split
  · exact .pair 'n' .nil
  split
  · exact .pair 'r' .nil
  split
  · exact .pair 't' .nil
  split
  · exact .plain hquote.1 hquote.2 .nil
  split
  · exact .pair 'x' (isQuotedBody_numeral hq ..)
  split
  · exact .pair 'u' (isQuotedBody_numeral hq ..)
  · exact .pair 'U' (isQuotedBody_numeral hq ..)

/-- The written form of a code point can stand in a literal. -/
theorem isQuotedBody_escapeCode {quote : Char} (hq : quote = '\'' ∨ quote = '"')
    (c : CodePoint) : IsQuotedBody quote (escapeCode quote c) := by
  unfold escapeCode
  split
  · exact isQuotedBody_escape hq _
  · exact .pair 'u' (isQuotedBody_numeral hq ..)

/-- What stands between the quotes is the inside of a literal. -/
theorem isQuotedBody_flatMap_escapeCode {quote : Char} (hq : quote = '\'' ∨ quote = '"')
    (cs : List CodePoint) : IsQuotedBody quote (cs.flatMap (escapeCode quote)) := by
  induction cs with
  | nil => exact .nil
  | cons c cs ih => exact isQuotedBody_append (isQuotedBody_escapeCode hq c) ih

theorem notMem_escape_numeral {d : Char} (hd : d ∉ ['\x00', '\r']) (width n : Nat) :
    '\x00' ∉ '\\' :: d :: numeral 16 width n ∧ '\r' ∉ '\\' :: d :: numeral 16 width n := by
  simp only [List.mem_cons, List.not_mem_nil, or_false, not_or] at hd
  have hnull : '\x00' ∉ numeral 16 width n := fun h => by simpa using notMem_of_mem_numeral h
  have hreturn : '\r' ∉ numeral 16 width n := fun h => by simpa using notMem_of_mem_numeral h
  simp [hnull, hreturn, hd, eq_comm]

/-- A null character and a carriage return are never written as they are. -/
theorem notMem_escape {quote : Char} (hq : quote = '\'' ∨ quote = '"') (c : Char) :
    '\x00' ∉ escape quote c ∧ '\r' ∉ escape quote c := by
  unfold escape
  split
  · rename_i h
    rcases h with rfl | rfl
    · rcases hq with rfl | rfl <;> decide
    · decide
  split
  · decide
  split
  · decide
  rename_i hreturn
  split
  · decide
  split
  · rename_i hprint
    have hnull : c ≠ '\x00' := by
      rintro rfl
      exact absurd hprint (by decide +kernel)
    simp [hreturn, hnull, eq_comm]
  split
  · exact notMem_escape_numeral (by decide) ..
  split
  · exact notMem_escape_numeral (by decide) ..
  · exact notMem_escape_numeral (by decide) ..

theorem notMem_escapeCode {quote : Char} (hq : quote = '\'' ∨ quote = '"') (c : CodePoint) :
    '\x00' ∉ escapeCode quote c ∧ '\r' ∉ escapeCode quote c := by
  unfold escapeCode
  split
  · exact notMem_escape hq _
  · exact notMem_escape_numeral (by decide) ..

/-- **A quoted text denotes itself.** -/
theorem literal_quotedChars [Platform] (t : Text) : literal (quotedChars t) = .ok t := by
  have hq := quoteFor_eq_or t
  generalize hquote : quoteFor t = quote at hq
  have hfree : ∀ d ∈ ['\x00', '\r'], d ∉ quotedChars t := by
    have hbody : ∀ d ∈ ['\x00', '\r'], d ∉ t.codes.flatMap (escapeCode quote) := by
      intro d hd h
      obtain ⟨c, -, hc⟩ := List.mem_flatMap.1 h
      obtain ⟨hnull, hreturn⟩ := notMem_escapeCode hq c
      simp only [List.mem_cons, List.not_mem_nil, or_false] at hd
      rcases hd with rfl | rfl
      · exact hnull hc
      · exact hreturn hc
    intro d hd
    have hne : d ≠ quote := by
      rintro rfl
      rcases hq with rfl | rfl <;> exact absurd hd (by decide)
    rw [quotedChars, hquote]
    simpa [hne] using hbody d hd
  rw [literal, if_neg (hfree '\x00' (by simp)), unifyNewlines_eq_self (hfree '\r' (by simp)),
    quotedChars, hquote, List.cons_append, List.drop_one, List.tail_cons, List.dropLast_concat,
    unescape_flatMap_escapeCode hq]

end Lookahead.Text
