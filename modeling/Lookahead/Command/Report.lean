import Lookahead.Grammar.OfText
import Lookahead.Grammar.Query

/-!
# Reports

A run writes lines to three channels: its output, its errors, and its debug messages.  Debug
messages go to the same stream as errors, but only if they are asked for.  What is written does
not depend on that: a run makes one `Transcript`, and the choice is made when it is shown.

The stream of the output takes characters only.  A line with a surrogate in it is not written, and
nothing behind it is (`written`).  The stream of the errors takes every line.

The tables of a grammar are first collected (`Overview`) and then written out.
-/

namespace Lookahead.Command

/-- Where a line goes. -/
inductive Channel where
  | output
  | error
  | debug
deriving DecidableEq, Repr

/-- A line and its channel. -/
structure Line where
  channel : Channel
  text : Text
deriving DecidableEq, Repr

/-- The lines of a run, in order. -/
abbrev Transcript := List Line

/-- Lines as a stream shows them, each with its line end. -/
def showLines (lines : List Line) : String :=
  String.join (lines.map fun l => l.text.shown ++ "\n")

/-- The output stream. -/
def outputOf (t : Transcript) : String :=
  showLines (t.filter (·.channel = .output))

/-- The error stream, with or without debug messages. -/
def errorsOf (debug : Bool) (t : Transcript) : String :=
  showLines (t.filter fun l => l.channel = .error ∨ (debug = true ∧ l.channel = .debug))

/-- The lines that come onto the output stream if these are to be written. -/
def written (texts : List Text) : List Text := texts.takeWhile Text.isWritable

/-- Lines of output. -/
def printed (texts : List Text) : Transcript := texts.map (⟨.output, ·⟩)

/-- Lines of errors. -/
def reported (texts : List Text) : Transcript := texts.map (⟨.error, ·⟩)

/-- Debug messages. -/
def traced (texts : List Text) : Transcript := texts.map (⟨.debug, ·⟩)

/-- Names separated by commas. -/
def commas (names : List Name) : Text := Text.join ", " names

/-! ## 1. Debug messages -/

/-- The declaration has been read. -/
def declarationMessage (d : Declaration) : Text :=
  "[DEBUG] AST ready | rules=" ++ toString d.rules.length

/-- The rules have been lowered. -/
def bnfMessage (b : Bnf) : Text :=
  "[DEBUG] BNF ready | terms=" ++ toString b.terminals.length ++
    " nonterms=" ++ toString b.nonterminals.length ++
    " rules=" ++ toString b.productions.length

/-- The tables have been computed. -/
def tablesMessage (g : Grammar) : Text :=
  "[DEBUG] NULLABLE/FIRST/FOLLOW/DIRECTOR computed | start=" ++ g.catalog.start.getD "None"

/-- A plain grammar, line by line. -/
def bnfListing (b : Bnf) : List Text :=
  [("" : Text), "[BNF]", "Start: " ++ b.start, "Terminals:", "  " ++ commas b.terminals,
    "Nonterminals:", "  " ++ commas b.nonterminals,
    "Productions: " ++ toString b.productions.length] ++
  b.productions.map fun p => ("  " : Text) ++ p.render

/-- The non-terminals without productions, if there are any. -/
def emptyWarning (g : Grammar) : List Text :=
  match g.catalog.nonterminals.filter fun n => (rhssOf g.productions n).isEmpty with
  | [] => []
  | ns => ["[WARN] Nonterminals without productions: " ++ commas ns]

/-! ## 2. The verdict -/

/-- Whether the grammar is LL(1), some counts, and the conflicts. -/
def verdict (g : Grammar) : List Text :=
  ("[CHECK OK] ll1=" ++ (if g.isLL1 then "yes" else "no") ++
    " nonterms=" ++ toString g.catalog.nonterminals.length ++
    " prods=" ++ toString g.productions.length ++
    " conflicts=" ++ toString g.conflicts.length) ::
  if g.isLL1 then [] else ["", "[Conflicts Detail]", renderConflicts g.conflicts]

/-! ## 3. The tables -/

/-- What the tables of a grammar say of some of its non-terminals. -/
structure Overview where
  nullable : List Name
  first : List (Name × NameSet)
  follow : List (Name × NameSet)
  director : List (Alternative × NameSet)
deriving DecidableEq

namespace Overview

/-- The entries of the given non-terminals. -/
def ofNames (g : Grammar) (ns : List Name) : Overview where
  nullable := ns.filter (· ∈ g.nullable)
  first := ns.map fun n => (n, (firstOfSequence g.first g.nullable [n]).1)
  follow := ns.map fun n => (n, g.follow.get n)
  director := ns.flatMap fun n => (directorRow g.productions g.first g.follow g.nullable n)

/-- A name behind as many blanks as it takes to fill the width. -/
def padded (width : Nat) (n : Name) : Text :=
  String.ofList (List.replicate (width - n.length) ' ') ++ n

/-- The line of one entry. -/
def entryLine (width : Nat) (e : Name × NameSet) : Text :=
  padded width e.1 ++ " : " ++ e.2.render

/-- The width of the longest name. -/
def width (o : Overview) : Nat := (o.first.map (·.1.length)).foldl max 0

/-- The overview, line by line. -/
def lines (o : Overview) : List Text :=
  [("[NULLABLE]" : Text), if o.nullable.isEmpty then "(none)" else commas o.nullable,
    "", "[FIRST(nonterminals)]"] ++ o.first.map (entryLine o.width) ++
  [("" : Text), "[FOLLOW(nonterminals)]"] ++ o.follow.map (entryLine o.width) ++
  [("" : Text), "[DIRECTOR(alternatives)]"] ++
    o.director.map fun e => ("  " : Text) ++ e.1.render ++ " : " ++ e.2.render

end Overview

/-! ## 4. A sequence -/

/-- FIRST of a sequence and whether it is nullable. -/
def firstLines (symbols : List Name) (answer : NameSet × Bool) : List Text :=
  ["FIRST(" ++ renderSequence symbols ++ ") = " ++ answer.1.render,
    "nullable = " ++ (if answer.2 then "yes" else "no")]

end Lookahead.Command
