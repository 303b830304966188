import Lookahead.Text.Basic
import Lookahead.Text.Classes

/-!
# Words of a command line

A command knows some **options**, each with a short spelling of a dash and a letter and a long one
of two dashes and a word.  What a word of the command line is depends only on the word itself and
on the options known where it stands:

1. a word that does not begin with a dash is plain, and so are the empty word and a lone dash;
2. a word that spells an option is that option;
3. a word that spells one up to its first `=` is that option, with what is behind the `=` attached
   to it;
4. a word of two dashes that begins the long spelling of one option is that option, again up to
   the first `=`; if it begins several, it is ambiguous;
5. a word of one dash that begins with a short spelling is that option, with the rest attached to
   it;
6. a word that is a negative number or has a blank in it is plain;
7. any other word is an unknown option.

The word `--` is none of these.  It is the separator: behind it every word is plain.
-/

namespace Lookahead.Command

/-- What an option does. -/
inductive Flag where
  /-- Shows how the command is used, and ends the run. -/
  | help
  /-- Turns the debug channel on. -/
  | debug
  /-- Restricts the output to one non-terminal, which is the option's value. -/
  | symbol
deriving DecidableEq, Repr

namespace Flag

/-- Whether the option has a value. -/
def takesValue : Flag → Bool
  | symbol => true
  | _ => false

/-- The letter of the short spelling. -/
def letter : Flag → Char
  | help => 'h'
  | debug => 'D'
  | symbol => 's'

/-- The short spelling. -/
def short (f : Flag) : Text := .ofChars ['-', f.letter]

/-- The long spelling. -/
def long : Flag → Text
  | help => "--help"
  | debug => "--debug"
  | symbol => "--symbol"

end Flag

/-- A word of the command line. -/
inductive Word where
  /-- A word that stands for itself. -/
  | plain (text : Text)
  /-- The word behind which every word is plain. -/
  | separator
  /-- An option in its short spelling, and what is attached to it. -/
  | short (flag : Flag) (attached : Option Text)
  /-- An option in its long spelling, and what is attached to it. -/
  | long (flag : Flag) (attached : Option Text)
  /-- A word that looks like an option, but none is known for it. -/
  | unknown
deriving DecidableEq, Repr

namespace Word

/-- Whether the word is neither an option nor looks like one. -/
def isPositional : Word → Bool
  | plain _ => true
  | separator => true
  | _ => false

/-- The word as it is written, if it is no option. -/
def text? : Word → Option Text
  | plain t => some t
  | separator => some "--"
  | _ => none

/-- Whether the code point is a decimal digit of some script. -/
def isDigit (c : CodePoint) : Bool := c.char?.any Text.isDecimalDigit

/-- Whether there are digits, or digits, a point and digits, the first ones optional. -/
def isUnsigned (cs : List CodePoint) : Bool :=
  match cs.dropWhile isDigit with
  | [] => !cs.isEmpty
  | c :: more => c = .ofChar '.' && !more.isEmpty && more.all isDigit

/-- Whether the word is a dash and an unsigned number; a line end behind it does no harm. -/
def isNegativeNumber (t : Text) : Bool :=
  match t.codes with
  | [] => false
  | c :: cs =>
    c = .ofChar '-' &&
      isUnsigned (if cs.getLast? = some (.ofChar '\n') then cs.dropLast else cs)

/-- The text in front of the first `=`, and the text behind it if there is one. -/
def splitValue (t : Text) : Text × Option Text :=
  match t.codes.dropWhile (· ≠ .ofChar '=') with
  | [] => (t, none)
  | _ :: value => (⟨t.codes.takeWhile (· ≠ .ofChar '=')⟩, some ⟨value⟩)

/-- The option that a text spells in full, with something attached to it. -/
def spelled? (flags : List Flag) (t : Text) (attached : Option Text) : Option Word :=
  match flags.find? (·.short = t) with
  | some f => some (.short f attached)
  | none => (flags.find? (·.long = t)).map (.long · attached)

/-- What a word is that begins with a dash but spells no option, if no option begins so. -/
def unspelled (t : Text) : Word :=
  if isNegativeNumber t || t.hasChar ' ' then .plain t else .unknown

/-- What a word is that begins with a dash and is not a dash alone; nothing if it is ambiguous. -/
def dashed? (flags : List Flag) (t : Text) : Option Word :=
  let (head, value) := splitValue t
  match spelled? flags t none, value.bind fun _ => spelled? flags head value with
  | some w, _ => some w
  | none, some w => some w
  | none, none =>
    if ("--" : Text).isPrefixOf t then
      match flags.filter fun f => head.isPrefixOf f.long with
      | [] => some (unspelled t)
      | [f] => some (.long f value)
      | _ => none
    else
      match flags.find? (·.short.isPrefixOf t) with
      | some f => some (.short f (some ⟨t.codes.drop 2⟩))
      | none => some (unspelled t)

/-- What a word in front of the separator is; nothing if it is ambiguous. -/
def classify? (flags : List Flag) (t : Text) : Option Word :=
  match t.codes with
  | c :: _ :: _ => if c = .ofChar '-' then dashed? flags t else some (.plain t)
  | _ => some (.plain t)

/-- The words of a command line; nothing if one in front of the separator is ambiguous. -/
def classifyAll? (flags : List Flag) : List Text → Option (List Word)
  | [] => some []
  | t :: ts =>
    if t = "--" then some (.separator :: ts.map .plain)
    else (classify? flags t).bind fun w => (classifyAll? flags ts).map (w :: ·)

end Word

end Lookahead.Command
