import Lookahead.Command.File
import Lookahead.Command.Options
import Lookahead.Command.Report

/-!
# Running a command

A run reads its file, makes a grammar of it, and does its task.  Every stage that succeeds leaves
a debug message; the first that fails ends the run.  A fault is reported on the error channel, and
the exit code is 2.  Otherwise it is 0, or 1 if a check finds that the grammar is not LL(1).

Some faults are not reported but **escape** (`Escape`), and then there is no exit code.

Output is written only after everything else that can fail has succeeded.  The last thing that can
fail is writing it.
-/

namespace Lookahead.Command

/-- A fault that is not reported. -/
inductive Escape where
  /-- The bytes of the file are not UTF-8. -/
  | encoding
  /-- A null character stands in a literal. -/
  | nullInLiteral
  /-- No file can have the path. -/
  | impossiblePath
  /-- A tree cannot be lowered. -/
  | lowering (fault : LoweringFault)
  /-- A line of output cannot be written. -/
  | unwritable
deriving DecidableEq, Repr

/-- How a run ends. -/
inductive Ending where
  /-- With an exit code. -/
  | exited (code : Nat)
  /-- With a fault that is not reported. -/
  | escaped (e : Escape)
deriving DecidableEq, Repr

/-- How a run ends, and what it has written until then. -/
structure Outcome where
  ending : Ending
  transcript : Transcript
deriving DecidableEq, Repr

namespace Outcome

/-- A run that has left some messages and then failed, with a report or with a fault that
escapes. -/
def failed (before : Transcript) : Except Escape (List Text) → Outcome
  | .ok report => ⟨.exited 2, before ++ reported report⟩
  | .error e => ⟨.escaped e, before⟩

/-- A run that has left some messages and then writes its output. -/
def printing (before : Transcript) (code : Nat) (texts : List Text) : Outcome where
  ending := if texts.all Text.isWritable then .exited code else .escaped .unwritable
  transcript := before ++ printed (written texts)

end Outcome

/-! ## 1. Faults -/

/-- The report of a file that cannot be read, or the fault that escapes. -/
def readReport (path : Text) (e : ReadError) : Except Escape (List Text) :=
  match e.describe? with
  | some description =>
    .ok ["[ERROR] " ++ (description ++ ": " ++ Text.quoted (plainPath path) : Text)]
  | none => .error .impossiblePath

/-- The report of a fault of a grammar, or of a question about it. -/
def grammarReport (e : GrammarError) : List Text :=
  ["[ERROR] " ++ (e.label ++ " " ++ e.message : Text)]

section

variable [Platform]

/-- The report of a fault of a text. -/
def sourceReport (text : List Char) : SourceError → List Text
  | .literal _ t => ["[SYNTAX ERROR]", Platform.complaint t.lexeme]
  | e => ["[SYNTAX ERROR]", (e.message? text).getD ""]

/-- The report of a failure, or the fault that escapes. -/
def failureReport : Failure → Except Escape (List Text)
  | .encoding => .error .encoding
  | .source text e =>
    match e with
    | .literal .null _ =>
      if Platform.reportsNull then .ok (sourceReport text e) else .error .nullInLiteral
    | _ => .ok (sourceReport text e)
  | .lowering e => .error (.lowering e)
  | .grammar e => .ok (grammarReport e)

end

/-! ## 2. Tasks -/

namespace Task

/-- The non-terminals that a name selects: all of them, if it is absent or empty. -/
def selected (g : Grammar) : Option Name → List Name
  | none => g.catalog.nonterminals
  | some n => if n.isEmpty then g.catalog.nonterminals else [n]

/-- The debug messages of a task. -/
def messages (b : Bnf) (g : Grammar) : Task → List Text
  | check => bnfListing b ++ emptyWarning g
  | sets _ => bnfListing b
  | first _ => []

/-- What the grammar has to say to a task: the exit code, and the lines of output. -/
def answer (g : Grammar) : Task → Except GrammarError (Nat × List Text)
  | check => .ok (if g.isLL1 then 0 else 1, verdict g)
  | sets only =>
    match (selected g only).find? (! g.catalog.isNonterminal ·) with
    | some n => .error (.unknownNonterminal n)
    | none => .ok (0, (Overview.ofNames g (selected g only)).lines)
  | first symbols => (g.firstOf symbols).map fun answer => (0, firstLines symbols answer)

/-- Does a task; `before` is what the run has written so far. -/
def perform (before : Transcript) (b : Bnf) (g : Grammar) (task : Task) : Outcome :=
  let before := before ++ traced (task.messages b g)
  match task.answer g with
  | .error e => .failed before (.ok (grammarReport e))
  | .ok (code, texts) => .printing before code texts

end Task

/-! ## 3. Runs -/

section

variable [Platform]

/-- Runs a task on the text of a grammar. -/
def Task.runOnText (task : Task) (text : List Char) : Outcome :=
  match declarationOfText text with
  | .error e => .failed [] (failureReport e)
  | .ok d =>
    let read := traced [declarationMessage d]
    match Bnf.ofDeclaration d with
    | .error e => .failed read (failureReport (.lowering e))
    | .ok b =>
      let lowered := read ++ traced [bnfMessage b]
      match Grammar.ofBnf b with
      | .error e => .failed lowered (failureReport (.grammar e))
      | .ok g => task.perform (lowered ++ traced [tablesMessage g]) b g

/-- Runs a task on what was found at the path. -/
def Task.run (task : Task) (path : Text) (found : Except ReadError ByteArray) : Outcome :=
  match found with
  | .error e => .failed [] (readReport path e)
  | .ok bytes =>
    match textOfFile bytes with
    | .error e => .failed [] (failureReport e)
    | .ok text => task.runOnText text

/-- Runs an invocation on what was found at its path. -/
def Invocation.run (i : Invocation) (found : Except ReadError ByteArray) : Outcome :=
  i.task.run i.file found

end

/-- The output stream of an invocation's run. -/
def Invocation.output (_ : Invocation) (o : Outcome) : String := outputOf o.transcript

/-- The error stream of an invocation's run. -/
def Invocation.errors (i : Invocation) (o : Outcome) : String := errorsOf i.debug o.transcript

end Lookahead.Command
