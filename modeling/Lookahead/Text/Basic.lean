import Lookahead.Text.Numeral

/-!
# Texts

A **text** is a sequence of code points.  Nearly all code points are the numbers of characters.
The surrogates are not, but an escape in a literal can name one, so they turn up in the names of a
grammar, and from there in what is written about it.

Texts are compared and measured code point by code point.  Characters are needed only where a text
leaves the library: a stream of characters takes a text that has nothing but characters in it
(`Text.isWritable`), and a stream that must not fail shows the number of a surrogate in its place
(`Text.shown`).  What is read from a file has no surrogates in it: a grammar text is a list of
characters.

## What is here

* code points, and the characters among them;
* texts in their order, appended, joined and measured, with a text for every string;
* what streams show of a text.
-/

namespace Lookahead

/-! ## 1. Code points -/

/-- The number of a character, or a surrogate. -/
abbrev CodePoint := Fin 0x110000

namespace CodePoint

/-- The number of a character. -/
def ofChar (c : Char) : CodePoint :=
  ⟨c.toNat, c.valid.elim (fun h => Nat.lt_trans h (by decide)) fun h => h.2⟩

/-- The code point of that number, if there is one. -/
def ofNat? (n : Nat) : Option CodePoint := if h : n < 0x110000 then some ⟨n, h⟩ else none

@[simp] theorem ofNat?_val (c : CodePoint) : ofNat? c.val = some c := dif_pos c.isLt

/-- The character of the number; none if it is a surrogate. -/
def char? (c : CodePoint) : Option Char :=
  if c.val.isValidChar then some (Char.ofNat c.val) else none

@[simp] theorem char?_ofChar (c : Char) : (ofChar c).char? = some c := by
  have hvalid : (ofChar c).val.isValidChar := c.valid
  rw [char?, if_pos hvalid]
  exact congrArg some (Char.ofNat_toNat c)

theorem ofChar_injective : Function.Injective ofChar := by
  intro c d h
  have hchar := congrArg char? h
  rwa [char?_ofChar, char?_ofChar, Option.some.injEq] at hchar

theorem eq_ofChar_of_char? {c : CodePoint} {d : Char} (h : c.char? = some d) : c = ofChar d := by
  unfold char? at h
  split at h <;> cases h
  rename_i hvalid
  refine Fin.ext ?_
  rw [Char.ofNat, dif_pos hvalid]
  rfl

/-- Surrogates have four hexadecimal digits. -/
theorem lt_of_char?_eq_none {c : CodePoint} (h : c.char? = none) : c.val < 0x10000 := by
  have hvalid : ¬ c.val.isValidChar := fun hv => by simp [char?, hv] at h
  have hlt : c.val < 0x110000 := c.isLt
  unfold Nat.isValidChar at hvalid
  omega

end CodePoint

/-! ## 2. Texts -/

/-- A sequence of code points. -/
structure Text where
  codes : List CodePoint
deriving DecidableEq, Repr, Inhabited

namespace Text

@[ext] theorem ext {t u : Text} (h : t.codes = u.codes) : t = u := by
  cases t
  cases u
  rw [mk.injEq]
  exact h

/-- The text of some characters. -/
def ofChars (cs : List Char) : Text := ⟨cs.map .ofChar⟩

/-- The text of a string. -/
@[coe] def ofString (s : String) : Text := ofChars s.toList

instance : Coe String Text := ⟨ofString⟩

instance : Append Text := ⟨fun t u => ⟨t.codes ++ u.codes⟩⟩

@[simp] theorem codes_append (t u : Text) : (t ++ u).codes = t.codes ++ u.codes := rfl

/-- The number of code points. -/
def length (t : Text) : Nat := t.codes.length

@[simp] theorem length_append (t u : Text) : (t ++ u).length = t.length + u.length :=
  List.length_append

/-- Whether there is nothing in the text. -/
def isEmpty (t : Text) : Bool := t.codes.isEmpty

/-- Whether the character occurs in the text. -/
def hasChar (t : Text) (c : Char) : Bool := t.codes.any (· = .ofChar c)

/-- Whether the other text begins with this one. -/
def isPrefixOf (t u : Text) : Bool := t.codes.isPrefixOf u.codes

/-- Texts in a row, with the same text between any two. -/
def join (between : Text) (ts : List Text) : Text :=
  ⟨between.codes.intercalate (ts.map codes)⟩

@[simp] theorem ofString_ofList (cs : List Char) : (String.ofList cs : Text) = ofChars cs := by
  rw [ofString, String.toList_ofList]

@[simp] theorem length_ofString (s : String) : (s : Text).length = s.length := by
  simp [length, ofString, ofChars, String.length_toList]

theorem isEmpty_iff {t : Text} : t.isEmpty = true ↔ t = "" := by
  rw [isEmpty, List.isEmpty_iff]
  exact ⟨fun h => ext h, fun h => h ▸ rfl⟩

theorem ofChars_injective : Function.Injective ofChars := fun _ _ h =>
  List.map_inj_right (fun _ _ h => CodePoint.ofChar_injective h) |>.1 (congrArg codes h)

theorem ofString_injective : Function.Injective ofString := fun _ _ h =>
  String.toList_injective (ofChars_injective h)

@[simp, norm_cast] theorem ofString_inj {s s' : String} : (s : Text) = s' ↔ s = s' :=
  ofString_injective.eq_iff

/-! ### Order -/

/-- Texts are ordered by the first code point in which they differ. -/
instance : LT Text := ⟨fun t u => t.codes < u.codes⟩

instance (t u : Text) : Decidable (t < u) := inferInstanceAs (Decidable (t.codes < u.codes))

/-- The comparison of the same order, by which tables of texts are kept. -/
instance : Ord Text := ⟨fun t u => compare t.codes u.codes⟩

instance : Std.TransOrd Text where
  eq_swap {t u} := Std.OrientedOrd.eq_swap (a := t.codes) (b := u.codes)
  isLE_trans {t u v} := Std.TransOrd.isLE_trans (a := t.codes) (b := u.codes) (c := v.codes)

instance : Std.LawfulEqOrd Text where
  eq_of_compare h := ext (Std.LawfulEqOrd.eq_of_compare h)

protected theorem lt_irrefl (t : Text) : ¬ t < t := List.lt_irrefl t.codes

protected theorem lt_trans {t u v : Text} (h : t < u) (h' : u < v) : t < v := List.lt_trans h h'

protected theorem lt_trichotomy (t u : Text) : t < u ∨ t = u ∨ u < t :=
  (Std.lt_trichotomy t.codes u.codes).imp_right (.imp_left ext)

/-! ## 3. Streams -/

/-- Whether there are only characters in the text. -/
def isWritable (t : Text) : Bool := t.codes.all (·.char?.isSome)

@[simp] theorem isWritable_append (t u : Text) :
    (t ++ u).isWritable = (t.isWritable && u.isWritable) := List.all_append

@[simp] theorem isWritable_ofChars (cs : List Char) : (ofChars cs).isWritable = true := by
  simp [isWritable, ofChars]

@[simp] theorem isWritable_ofString (s : String) : (s : Text).isWritable = true :=
  isWritable_ofChars s.toList

theorem isWritable_join {between : Text} (h : between.isWritable = true) (ts : List Text) :
    (join between ts).isWritable = ts.all isWritable := by
  induction ts with
  | nil => rfl
  | cons t ts ih =>
    cases ts with
    | nil => simp [join, isWritable]
    | cons u ts =>
      have hcons : join between (t :: u :: ts) = t ++ (between ++ join between (u :: ts)) := rfl
      rw [hcons, isWritable_append, isWritable_append, h, ih, Bool.true_and, ← List.all_cons]

/-- The characters that stand for a code point: the character itself, or the number of a
surrogate. -/
def shownCode (c : CodePoint) : List Char :=
  match c.char? with
  | some d => [d]
  | none => '\\' :: 'u' :: numeral 16 4 c.val

/-- A text as a stream shows it that takes every text. -/
def shown (t : Text) : String := String.ofList (t.codes.flatMap shownCode)

@[simp] theorem shown_ofChars (cs : List Char) : (ofChars cs).shown = String.ofList cs := by
  simp [shown, ofChars, shownCode, List.flatMap_map]

@[simp] theorem shown_ofString (s : String) : (s : Text).shown = s := by
  rw [ofString, shown_ofChars, String.ofList_toList]

@[simp] theorem shown_append (t u : Text) : (t ++ u).shown = t.shown ++ u.shown := by
  rw [shown, codes_append, List.flatMap_append, String.ofList_append]
  rfl

end Text

end Lookahead
