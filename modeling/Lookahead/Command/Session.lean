import Lookahead.Command.Run

/-!
# Sessions

A run leaves one transcript, and which of its lines are shown is chosen at the end.  That is how a
run is computed.  This module says how it goes: step after step, on two streams that fill up on the
way.

* Wherever a debug message can be written, it is asked whether it is wanted.  What nothing but such
  a message needs is not even looked at otherwise.
* The grammar is asked for an entry when that entry is to be written.  It could refuse with half of
  the output on the stream already.
* Each line of output is written by itself, and the first that the stream does not take is a fault.
* A fault is raised where it is found, and the streams keep what they hold.  Its report comes behind
  that, or the fault escapes.

From outside, a run is a `Session`: how it has ended, and what the streams hold then.
-/

namespace Lookahead.Command

/-- What the two streams hold. -/
structure Streams where
  output : String
  errors : String
deriving DecidableEq, Repr

/-- What a step can raise. -/
inductive Fault where
  /-- The file at the path cannot be read. -/
  | unread (path : Text) (e : ReadError)
  /-- What has been read gives no grammar, or the grammar has no answer. -/
  | failed (e : Failure)
  /-- A line of output cannot be written. -/
  | unwritable

/-- The report of a fault, or the fault that escapes. -/
def Fault.report [Platform] : Fault → Except Escape (List Text)
  | unread path e => readReport path e
  | failed e => failureReport e
  | unwritable => .error .unwritable

/-- Steps on the streams that end with a value or raise a fault. -/
abbrev Script := ExceptT Fault (StateM Streams)

namespace Script

/-! ## 1. Steps -/

/-- Writes a line of output. -/
def print (text : Text) : Script Unit :=
  if text.isWritable then modify fun s => { s with output := s.output ++ text.shown ++ "\n" }
  else throw .unwritable

/-- Writes a line of errors. -/
def printError (text : Text) : Script Unit :=
  modify fun s => { s with errors := s.errors ++ text.shown ++ "\n" }

/-- Steps that are taken only if debug messages are wanted. -/
def ifDebug (debug : Bool) (x : Script Unit) : Script Unit := if debug then x else pure ()

/-- Writes debug messages, if they are wanted. -/
def trace (debug : Bool) (texts : List Text) : Script Unit :=
  ifDebug debug (texts.forM printError)

/-- Goes on with a value, or raises the failure to get one. -/
def attempt {α : Type} : Except Failure α → Script α
  | .ok a => pure a
  | .error e => throw (.failed e)

/-- Goes on with the answer to a question about a grammar. -/
def ask {α : Type} (answer : Except GrammarError α) : Script α :=
  attempt (answer.mapError .grammar)

/-! ## 2. Stages -/

/-- The text of what was found at the path. -/
def fetch (path : Text) : Except ReadError ByteArray → Script (List Char)
  | .ok bytes => attempt (textOfFile bytes)
  | .error e => throw (.unread path e)

/-- Makes a grammar of a text. -/
def load [Platform] (debug : Bool) (text : List Char) : Script (Bnf × Grammar) := do
  let d ← attempt (declarationOfText text)
  trace debug [declarationMessage d]
  let b ← attempt ((Bnf.ofDeclaration d).mapError .lowering)
  trace debug [bnfMessage b]
  let g ← attempt ((Grammar.ofBnf b).mapError .grammar)
  trace debug [tablesMessage g]
  return (b, g)

/-- Warns of the non-terminals that turn out to have no productions. -/
def warn (g : Grammar) : Script Unit := do
  let rows ← g.catalog.nonterminals.mapM fun n => do
    return (n, ← ask (g.productionsFor n))
  let empty := (rows.filter (·.2.isEmpty)).map (·.1)
  unless empty.isEmpty do
    printError ("[WARN] Nonterminals without productions: " ++ commas empty)

/-- Says whether the grammar is LL(1). -/
def check (debug : Bool) (b : Bnf) (g : Grammar) : Script Nat := do
  trace debug (bnfListing b)
  ifDebug debug (warn g)
  (verdict g).forM print
  return if g.isLL1 then 0 else 1

/-- Writes the part of the tables that has the title, one non-terminal after the other. -/
def showPart (title : Text) (ns : List Name) (entries : Name → Script Unit) : Script Unit := do
  [("" : Text), title].forM print
  ns.forM entries

/-- Writes the tables, entry by entry. -/
def showTables (g : Grammar) (only : Option Name) : Script Unit := do
  let ns := Task.selected g only
  ns.forM fun n => discard (ask (g.catalog.requireNonterminal n))
  let nullable := ns.filter (· ∈ g.nullable)
  [("[NULLABLE]" : Text), if nullable.isEmpty then "(none)" else commas nullable].forM print
  let width := (ns.map (·.length)).foldl max 0
  showPart "[FIRST(nonterminals)]" ns fun n => do
    print (Overview.entryLine width (n, ← ask (g.firstSet [n])))
  showPart "[FOLLOW(nonterminals)]" ns fun n => do
    print (Overview.entryLine width (n, ← ask (g.followSet n)))
  showPart "[DIRECTOR(alternatives)]" ns fun n => do
    (← ask (g.directorSets n)).forM fun e => print ("  " ++ e.1.render ++ " : " ++ e.2.render)

/-- Shows the tables. -/
def sets (debug : Bool) (b : Bnf) (g : Grammar) (only : Option Name) : Script Nat := do
  trace debug (bnfListing b)
  showTables g only
  return 0

/-- Shows FIRST of a sequence. -/
def first (g : Grammar) (symbols : List Name) : Script Nat := do
  let answer ← ask (g.firstOf symbols)
  (firstLines symbols answer).forM print
  return 0

/-- Does a task; the steps end with the exit code. -/
def perform (debug : Bool) (b : Bnf) (g : Grammar) : Task → Script Nat
  | .check => check debug b g
  | .sets only => sets debug b g only
  | .first symbols => first g symbols

/-- Runs a task on what was found at the path. -/
def ofTask [Platform] (task : Task) (debug : Bool) (path : Text) (found : Except ReadError ByteArray) :
    Script Nat := do
  let (b, g) ← load debug (← fetch path found)
  perform debug b g task

end Script

/-! ## 3. Sessions -/

/-- What is seen of a run. -/
structure Session where
  ending : Ending
  streams : Streams
deriving DecidableEq, Repr

/-- The session of a script that begins with nothing on the streams. -/
def Script.session [Platform] (x : Script Nat) : Session :=
  match x.run ⟨"", ""⟩ with
  | (.ok code, s) => ⟨.exited code, s⟩
  | (.error fault, s) =>
    match fault.report with
    | .ok report => ⟨.exited 2, { s with errors := s.errors ++ showLines (reported report) }⟩
    | .error escape => ⟨.escaped escape, s⟩

section

variable [Platform]

/-- The session of an invocation, with what was found at its path. -/
def Invocation.session (i : Invocation) (found : Except ReadError ByteArray) : Session :=
  (Script.ofTask i.task i.debug i.file found).session

/-- The session of a command line, in surroundings that say what is found at a path; none if the
command line cannot be run. -/
def execute (find : Text → Except ReadError ByteArray) (args : List Text) :
    Except Stop Session :=
  (Invocation.ofArgs args).map fun i => i.session (find i.file)

end

end Lookahead.Command
