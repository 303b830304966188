import Lookahead.Text.Basic
import Lookahead.Text.Position

/-!
# Quoted literals

The grammar language leaves a few things to the platform that it is read on: which characters have
a name, and what becomes of a literal that denotes no text.  A `Platform` settles them.  Whatever
reads literals does so on some platform, and what is proved about it holds on every one.

A literal of the grammar language is a token between two equal quotes; `literal` says which text
it denotes.  A backslash starts an escape:

* `\` and a line end stand for nothing, so a literal may be broken over lines;
* `\\`, `\'`, `\"` stand for the second character, and `\a \b \f \n \r \t \v` for the control
  characters of those letters;
* `\` with one to three octal digits, `\x` with two hexadecimal digits, `\u` with four and `\U`
  with eight stand for the code point of that number, surrogates included;
* `\N` with a name in braces stands for the character of that name;
* any other `\c` stands for the two characters it consists of.

A literal is **malformed** if a line end stands in it without a backslash, if `\x`, `\u` or `\U`
has too few digits or a number that is no code point, or if `\N` is not followed by a name in
braces that the platform knows.  A null character anywhere in the token is a fault of its own and
comes before all others.
-/

namespace Lookahead

/-! ## 1. The platform -/

/-- What is left to the platform. -/
class Platform where
  /-- The character of a name. -/
  namedChar? : List Char → Option Char
  /-- What is said of a literal that denotes no text. -/
  complaint : String → String
  /-- Whether a null character in a literal is reported as other faults of literals are.  It is from
  release 3.11.4 on; before that it is raised as a fault of another kind, which nothing catches. -/
  reportsNull : Bool

namespace Platform

/-- A platform of release 3.11.3 that knows the given names and says nothing. -/
abbrev ofNames (names : List (String × Char)) : Platform :=
  ⟨fun n => (names.find? (·.1.toList = n)).map (·.2), fun _ => "", false⟩

/-- The same, with no names at all. -/
abbrev bare : Platform := ofNames []

end Platform

namespace Text

/-! ## 2. Escapes -/

/-- Why a token between quotes denotes no text. -/
inductive LiteralFault where
  /-- The token holds a null character. -/
  | null
  /-- An escape is not well formed, or a line end stands free. -/
  | malformed
deriving DecidableEq, Repr

/-- The characters that a backslash and one letter stand for. -/
def letterEscape? (c : Char) : Option Char :=
  if c = '\\' ∨ c = '\'' ∨ c = '"' then some c
  else if c = 'a' then some '\x07'
  else if c = 'b' then some '\x08'
  else if c = 'f' then some '\x0c'
  else if c = 'n' then some '\n'
  else if c = 'r' then some '\r'
  else if c = 't' then some '\t'
  else if c = 'v' then some '\x0b'
  else none

/-- The code point numbered by the first `width` hexadecimal digits. -/
def numberedCode? (width : Nat) (cs : List Char) : Option CodePoint :=
  if (cs.take width).length = width then
    (numeralValue? 16 (cs.take width)).bind CodePoint.ofNat?
  else none

/-- The name in braces at the head of the text. -/
def bracedName? : List Char → Option (List Char)
  | '{' :: cs =>
    let name := cs.takeWhile (· ≠ '}')
    if name ≠ [] ∧ '\n' ∉ name ∧ name.length < cs.length then some name else none
  | _ => none

/-- Whether the character is an octal digit. -/
def isOctal (c : Char) : Bool := (digitValue? 8 c).isSome

section

variable [Platform]

/-- What the escape at the head of the text denotes, the backslash already taken off, and how
many characters it takes up after the first. -/
def escape? (c : Char) (cs : List Char) : Option (List CodePoint × Nat) :=
  match letterEscape? c with
  | some d => some ([.ofChar d], 0)
  | none =>
    if c = '\n' then some ([], 0)
    else if c = 'x' then (numberedCode? 2 cs).map ([·], 2)
    else if c = 'u' then (numberedCode? 4 cs).map ([·], 4)
    else if c = 'U' then (numberedCode? 8 cs).map ([·], 8)
    else if c = 'N' then
      (bracedName? cs).bind fun name =>
        (Platform.namedChar? name).map ([.ofChar ·], name.length + 2)
    else if isOctal c then
      let more := (cs.take 2).takeWhile isOctal
      ((numeralValue? 8 (c :: more)).bind CodePoint.ofNat?).map ([·], more.length)
    else some ([.ofChar '\\', .ofChar c], 0)

/-- The text between the quotes, read. -/
def unescape : List Char → Option (List CodePoint)
  | [] => some []
  | [c] => if c = '\\' ∨ c = '\n' then none else some [.ofChar c]
  | c :: d :: cs =>
    if c = '\\' then
      (escape? d cs).bind fun e => (unescape (cs.drop e.2)).map (e.1 ++ ·)
    else if c = '\n' then none
    else (unescape (d :: cs)).map (.ofChar c :: ·)
termination_by cs => cs.length
decreasing_by all_goals simp; try omega

/-- The text that a token between quotes denotes. -/
def literal (token : List Char) : Except LiteralFault Text :=
  if '\x00' ∈ token then .error .null
  else
    match unescape ((unifyNewlines token).drop 1).dropLast with
    | some codes => .ok ⟨codes⟩
    | none => .error .malformed

end

end Text

end Lookahead
