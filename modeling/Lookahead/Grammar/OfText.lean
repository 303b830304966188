import Lookahead.Grammar.Basic
import Lookahead.Source.Reader

/-!
# From a text to a checked grammar

A grammar text is read into a declaration, the declaration is lowered to a plain grammar, and the
plain grammar is checked and analysed.  Each stage has faults of its own; a `Failure` is a fault of
any of them, and only a text that passes all three gives a grammar.

A grammar file is read as UTF-8, strictly: overlong forms, surrogates and numbers beyond the last
character are refused.  A byte order mark in front of the text is dropped, but only one, and a file
that breaks off inside the mark is empty.  Line ends of all three kinds become line feeds.
-/

namespace Lookahead

/-! ## 1. Texts -/

/-- Why a file or a text gives no grammar. -/
inductive Failure where
  /-- The file is not UTF-8. -/
  | encoding
  /-- The text cannot be read. -/
  | source (text : List Char) (fault : SourceError)
  /-- The declaration cannot be lowered. -/
  | lowering (fault : LoweringFault)
  /-- The grammar is refused. -/
  | grammar (fault : GrammarError)
deriving DecidableEq, Repr

section

variable [Platform]

/-- The declaration in a text. -/
def declarationOfText (text : List Char) : Except Failure Declaration :=
  (Declaration.ofText text).mapError (.source text)

/-- The plain grammar in a text. -/
def bnfOfText (text : List Char) : Except Failure Bnf :=
  match declarationOfText text with
  | .error e => .error e
  | .ok d => (Bnf.ofDeclaration d).mapError .lowering

/-- The checked grammar in a text. -/
def Grammar.ofText (text : List Char) : Except Failure Grammar :=
  match bnfOfText text with
  | .error e => .error e
  | .ok b => (Grammar.ofBnf b).mapError .grammar

end

/-! ## 2. Files -/

/-- The bytes of the byte order mark. -/
def Source.byteOrderMark : List UInt8 := [0xEF, 0xBB, 0xBF]

/-- The text in the bytes of a file, if they are UTF-8. -/
def Source.decodeFile (bytes : ByteArray) : Option (List Char) :=
  if bytes.size < 3 ∧ bytes.data.toList.isPrefixOf byteOrderMark then some []
  else
    let body :=
      if byteOrderMark.isPrefixOf bytes.data.toList then bytes.extract 3 bytes.size else bytes
    (String.fromUTF8? body).map fun s => Text.unifyNewlines s.toList

/-- The text in a file. -/
def textOfFile (bytes : ByteArray) : Except Failure (List Char) :=
  match Source.decodeFile bytes with
  | none => .error .encoding
  | some text => .ok text

/-- The checked grammar in a file. -/
def Grammar.ofFile [Platform] (bytes : ByteArray) : Except Failure Grammar :=
  match textOfFile bytes with
  | .error e => .error e
  | .ok text => Grammar.ofText text

end Lookahead
