import Lookahead.Command.Word
import Lookahead.Symbol

/-!
# Command lines

    check FILE [-D]        sets FILE [-s NAME] [-D]        first FILE [NAME …] [-D]

A command line is a subcommand and its words.  The options of the subcommand may stand before and
behind the file, `-h` shows how the command is used, and joined short options are one option each.

## Files and symbols

The words that are no options come in **runs**, cut by the options between them.  The first run
with a plain word in it gives the file, and with `first` also all symbols: the rest of the same
run.  Whatever is left of a run is too much, and so are all later runs.  The separator is dropped;
among the symbols, so is the first word that is spelled like it.

## Outcomes

Options act in the order in which they stand, and of two values the later one counts.  An option
that cannot be read ends the run at once, and so does `-h`; words that are too many, unknown
options and a missing file are found out at the end.  So a command line is an `Invocation`, or the
run is over before it begins, with or without a fault (`Stop`).

## Releases

Command lines are read as they are up to release 3.11.8.  Later ones keep a value or a symbol that
is spelled like the separator, and they show help even if unknown letters are joined to `-h`.
-/

namespace Lookahead.Command

/-- How a run ends before it begins. -/
inductive Stop where
  /-- The use of the command was asked for. -/
  | help
  /-- The command line is refused. -/
  | refused
deriving DecidableEq, Repr

/-- The exit code of a run that ends before it begins. -/
def Stop.exit : Stop → Nat
  | help => 0
  | refused => 2

/-- The subcommands. -/
inductive Subcommand where
  | check
  | sets
  | first
deriving DecidableEq, Repr

namespace Subcommand

/-- The subcommand of that name. -/
def ofName? (t : Text) : Option Subcommand :=
  if t = "check" then some check
  else if t = "sets" then some sets
  else if t = "first" then some first
  else none

/-- The options of a subcommand. -/
def flags : Subcommand → List Flag
  | check => [.help, .debug]
  | sets => [.help, .symbol, .debug]
  | first => [.help, .debug]

end Subcommand

/-- What a run is to do with a grammar. -/
inductive Task where
  /-- Say whether it is LL(1), and list the conflicts. -/
  | check
  /-- Show the tables, those of one non-terminal if a name is given that is not empty. -/
  | sets (only : Option Name)
  /-- Show FIRST of a sequence. -/
  | first (symbols : List Name)
deriving DecidableEq, Repr

/-- A command line that can be run. -/
structure Invocation where
  task : Task
  file : Text
  debug : Bool
deriving DecidableEq, Repr

/-- What has been read of a command line. -/
structure Scanned where
  file : Option Text
  symbols : List Name
  only : Option Name
  debug : Bool
  /-- Whether some word was too much. -/
  surplus : Bool
deriving DecidableEq, Repr

namespace Scanned

/-- Nothing read yet. -/
def initial : Scanned := ⟨none, [], none, false, false⟩

/-! ## 1. Runs -/

/-- Reads a run of words without options. -/
def takeRun (sub : Subcommand) (r : Scanned) (run : List Word) : Scanned :=
  let surplus : Scanned := { r with surplus := true }
  match r.file with
  | some _ => surplus
  | none =>
    match run.dropWhile (· == .separator) with
    | .plain file :: rest =>
      let rest := rest.dropWhile (· == .separator)
      match sub with
      | .first =>
        { r with file := some file, symbols := (rest.filterMap Word.text?).erase "--" }
      | _ => { r with file := some file, surplus := r.surplus || !rest.isEmpty }
    | _ => surplus

/-! ## 2. Options -/

/-- An option acts.  A value that is spelled like the separator counts as none. -/
def act (r : Scanned) (flag : Flag) (value : Option Text) : Except Stop Scanned :=
  match flag with
  | .help => .error .help
  | .debug => .ok { r with debug := true }
  | .symbol => .ok { r with only := value.filter (· ≠ "--") }

/-- Options without values act one after the other. -/
def actAll (r : Scanned) : List Flag → Except Stop Scanned
  | [] => .ok r
  | f :: fs =>
    match r.act f none with
    | .error e => .error e
    | .ok r => r.actAll fs

/-- Takes apart what is attached to a short option: a value, if the option has one; otherwise the
letters of more short options, of which the last may again have something attached.  Gives the
options in front, the last one, and its value.  Nothing if a letter is no option. -/
def unjoin? (flags : List Flag) (flag : Flag) :
    List CodePoint → Option (List Flag × Flag × Option Text)
  | [] => if flag.takesValue then some ([], flag, some "") else none
  | c :: cs =>
    if flag.takesValue then some ([], flag, some ⟨c :: cs⟩)
    else
      match flags.find? (.ofChar ·.letter = c) with
      | none => none
      | some next =>
        if cs.isEmpty then some ([flag], next, none)
        else (unjoin? flags next cs).map fun (before, last, value) => (flag :: before, last, value)

/-- The options that an option word consists of, as `unjoin?` gives them.  Nothing if something is
attached to a long option that has no value. -/
def takeApart? (flags : List Flag) : Word → Option (List Flag × Flag × Option Text)
  | .short f none => some ([], f, none)
  | .short f (some attached) => unjoin? flags f attached.codes
  | .long f none => some ([], f, none)
  | .long f (some value) => if f.takesValue then some ([], f, some value) else none
  | _ => none

/-- The options that a word consists of, with the value of the last one, and the words that are
left behind it: an option that needs a value and has none attached takes the next word, if that is
a plain one.  Nothing if the word cannot be read. -/
def splitOption? (flags : List Flag) (w : Word) (rest : List Word) :
    Option (List Flag × Flag × Option Text × List Word) :=
  match takeApart? flags w with
  | none => none
  | some (before, last, some value) => some (before, last, some value, rest)
  | some (before, last, none) =>
    if last.takesValue then
      match rest with
      | .plain value :: rest => some (before, last, some value, rest)
      | _ => none
    else some (before, last, none, rest)

theorem length_le_of_splitOption? {flags : List Flag} {w : Word} {rest left : List Word}
    {before : List Flag} {last : Flag} {value : Option Text}
    (h : splitOption? flags w rest = some (before, last, value, left)) :
    left.length ≤ rest.length := by
  unfold splitOption? at h
  split at h
  · simp at h
  · simp_all
  · split at h
    · split at h
      · simp only [Option.some.injEq, Prod.mk.injEq] at h
        simp [← h.2.2.2]
      · simp at h
    · simp_all

/-- The options of a word act in order. -/
def actOn (r : Scanned) (before : List Flag) (last : Flag) (value : Option Text) :
    Except Stop Scanned :=
  match r.actAll before with
  | .error e => .error e
  | .ok r => r.act last value

/-! ## 3. The words of a subcommand -/

/-- Reads the words of a subcommand. -/
def takeWords (sub : Subcommand) (r : Scanned) : List Word → Except Stop Scanned
  | [] => .ok r
  | w :: ws =>
    if w.isPositional then
      takeWords sub (r.takeRun sub (w :: ws.takeWhile Word.isPositional))
        (ws.dropWhile Word.isPositional)
    else if w = .unknown then takeWords sub { r with surplus := true } ws
    else
      match _h : splitOption? sub.flags w ws with
      | none => .error .refused
      | some (before, last, value, left) =>
        match r.actOn before last value with
        | .error e => .error e
        | .ok r => takeWords sub r left
termination_by ws => ws.length
decreasing_by
  · have := (List.dropWhile_sublist (l := ws) Word.isPositional).length_le
    simp only [List.length_cons]; omega
  · simp
  · have := length_le_of_splitOption? (by assumption)
    simp only [List.length_cons]; omega

/-- The invocation that has been read, if nothing is missing and nothing too much. -/
def finish (sub : Subcommand) (r : Scanned) : Except Stop Invocation :=
  match r.file, r.surplus with
  | some file, false =>
    let task : Task := match sub with
      | .check => .check
      | .sets => .sets r.only
      | .first => .first r.symbols
    .ok ⟨task, file, r.debug⟩
  | _, _ => .error .refused

end Scanned

namespace Invocation

/-- The invocation that the words behind a subcommand stand for. -/
def ofWords (sub : Subcommand) (args : List Text) : Except Stop Invocation :=
  match Word.classifyAll? sub.flags args with
  | none => .error .refused
  | some ws => (Scanned.initial.takeWords sub ws).bind (·.finish sub)

/-- The invocation that a command line stands for.  In front of the subcommand only `-h` is an
option; any other is refused, once the words of the subcommand have been read. -/
def ofArgs : List Text → Except Stop Invocation
  | [] => .error .refused
  | t :: ts =>
    match Word.classify? [.help] t with
    | some (.plain name) =>
      match Subcommand.ofName? name with
      | none => .error .refused
      | some sub => ofWords sub ts
    | some .unknown => (ofArgs ts).bind fun _ => .error .refused
    | some w =>
      if t = "--" then .error .refused
      else
        match Scanned.splitOption? [.help] w [] with
        | none => .error .refused
        | some (before, last, value, _) =>
          (Scanned.initial.actOn before last value).bind fun _ => .error .refused
    | none => .error .refused

end Invocation

end Lookahead.Command
