import Lookahead.Command.Run
import Lookahead.Proofs.Agreement
import Lookahead.Proofs.Moves

/-!
# How a run ends

A run ends with an exit code, or a fault escapes from it.  Whatever a command line is and whatever
is found at its path, this says which of the two it is and what the exit code tells.

## 1. What was read can be lowered

The reader makes no tree with unknown parts: every atom that it puts into a level is a name, a
literal or a group of such, with a suffix that a token spells (`Reading.IsSound`).  So no fault of
lowering ever escapes.

## 2. Stages

`Grammar.ofFile` makes a grammar of a file without a word.  A run passes through the same stages and
leaves nothing but debug messages behind on the way (`Task.Continues`).

## 3. Streams and reports

A run that fails writes a report behind its debug messages, and no output.  Three faults are not
reported (`Escapes`).

## 4. Tasks

A task fails (`Task.Fails`) if nothing can be read at the path, if what is read gives no grammar, or
if the grammar has no answer.  A task that does not fail has output, and that can be written if
there are no surrogates in it (`Task.IsUnwritable`).

## 5. Runs

So every run ends in one of three ways (`Task.ends_run`), and what it has written and its exit code
tell in which.

## 6. Command lines

A command line that is accepted begins with its subcommand (`Invocation.task_of_ofArgs`), so the
exit codes can be told from the command line itself.
-/

namespace Lookahead

/-! ## 1. What was read can be lowered -/

namespace Expr

theorem suffixFault?_eq_none {k : TokenKind} {suffix : Suffix} (h : k.suffix? = some suffix) :
    suffixFault? suffix = none := by
  cases k <;> cases h <;> rfl

theorem atomFault?_leaf {l : Leaf} (hl : l ≠ .unknown) (span : Option Span) :
    atomFault? (.leaf l .once span) = none := by
  cases l with
  | unknown => exact absurd rfl hl
  | name n => rfl
  | literal t => rfl

theorem atomFault?_withSuffix {a : Atom} (ha : atomFault? a = none) {suffix : Suffix}
    (h : suffixFault? suffix = none) : atomFault? (a.withSuffix suffix) = none := by
  cases a with
  | leaf l _ span =>
    cases l with
    | unknown => cases ha
    | name n => exact h
    | literal t => exact h
  | group alternatives _ span =>
    rw [atomFault?, Option.or_eq_none_iff] at ha
    rw [Atom.withSuffix, atomFault?, ha.1, h]
    rfl

end Expr

/-- Nothing that the stage holds is faulty. -/
def Stage.IsSound : Stage → Prop
  | .body _ _ outer level pending =>
    Expr.fault? level.alternatives = none ∧ (∀ o ∈ outer, Expr.fault? o.2.alternatives = none) ∧
      ∀ a ∈ pending, Expr.atomFault? a = none
  | _ => True

/-- Nothing that was read so far is faulty. -/
structure Reading.IsSound (r : Reading) : Prop where
  rules : ∀ rule ∈ r.declared.rules, Expr.fault? rule.body = none
  stage : r.stage.IsSound

namespace Reading

variable {r r' : Reading} {d : Declaration} {t : Token}

theorem isSound_initial : initial.IsSound := ⟨fun _ h => absurd h List.not_mem_nil, trivial⟩

theorem fault?_settle {level : Level} {pending : Option Atom}
    (hlevel : Expr.fault? level.alternatives = none)
    (hpending : ∀ a ∈ pending, Expr.atomFault? a = none) :
    Expr.fault? (level.settle pending).alternatives = none := by
  cases pending with
  | none => exact hlevel
  | some a => rw [Level.settle, Expr.fault?_push, hlevel, hpending a rfl, Option.or_none]

/-- A leaf is put into a level that is sound. -/
theorem IsSound.leaf {name last : Token} {outer : List (Token × Level)} {level : Level}
    {pending : Option Atom} (h : IsSound ⟨d, .body name last outer level pending⟩) {l : Leaf}
    (hl : l ≠ .unknown) (span : Option Span) :
    IsSound ⟨d, .body name t outer (level.settle pending) (some (.leaf l .once span))⟩ := by
  obtain ⟨hrules, hlevel, houter, hpending⟩ := h
  refine ⟨hrules, fault?_settle hlevel hpending, houter, fun a ha => ?_⟩
  cases ha
  exact Expr.atomFault?_leaf hl span

/-- **One step.**  Nothing faulty is put into a level, and outside of rules the reader makes no
trees. -/
theorem IsSound.step [Platform] (h : r.IsSound) (hs : r.step t = .ok r') : r'.IsSound := by
  cases moves_of_step hs with
  | percent | tokenDirective | startDirective | terminal | closeTokens | startSymbol | closeStart
  | lhs => exact ⟨h.rules, trivial⟩
  | colon => exact ⟨h.rules, rfl, fun _ ho => absurd ho List.not_mem_nil, by simp⟩
  | name => exact h.leaf (by simp) _
  | literal => exact h.leaf (by simp) _
  | leftParen =>
    obtain ⟨hrules, hlevel, houter, hpending⟩ := h
    exact ⟨hrules, rfl, List.forall_mem_cons.2 ⟨fault?_settle hlevel hpending, houter⟩, by simp⟩
  | rightParen =>
    obtain ⟨hrules, hlevel, houter, hpending⟩ := h
    rw [List.forall_mem_cons] at houter
    refine ⟨hrules, houter.1, houter.2, fun a ha => ?_⟩
    cases ha
    rw [Expr.atomFault?, fault?_settle hlevel hpending]
    rfl
  | bar =>
    obtain ⟨hrules, hlevel, houter, hpending⟩ := h
    exact ⟨hrules, (Expr.fault?_bar _).trans (fault?_settle hlevel hpending), houter, by simp⟩
  | suffix hk =>
    obtain ⟨hrules, hlevel, houter, hpending⟩ := h
    refine ⟨hrules, ?_, houter, by simp⟩
    rw [Expr.fault?_push, hlevel, Option.none_or]
    exact Expr.atomFault?_withSuffix (hpending _ rfl) (Expr.suffixFault?_eq_none hk)
  | closeRule =>
    obtain ⟨hrules, hlevel, houter, hpending⟩ := h
    refine ⟨List.forall_mem_append.2 ⟨hrules, ?_⟩, trivial⟩
    simpa using fault?_settle hlevel hpending

/-- **A whole run.** -/
theorem IsSound.faultOf?_eq_none [Platform] {close : Token} {ts : List Token} (h : r.IsSound)
    (hr : r.read close ts = .ok d) : Bnf.faultOf? d = none := by
  induction ts generalizing r with
  | nil =>
    rw [read] at hr
    unfold finish at hr
    split at hr
    · cases hr
      exact List.findSome?_eq_none_iff.2 h.rules
    · cases hr
  | cons t ts ih =>
    rw [read] at hr
    cases hs : r.step t with
    | error e =>
      rw [hs] at hr
      cases hr
    | ok r' =>
      rw [hs] at hr
      exact ih (h.step hs) hr

end Reading

/-- A declaration that was read from a text can be lowered. -/
theorem Declaration.exists_ofDeclaration_of_ofText [Platform] {text : List Char} {d : Declaration}
    (h : ofText text = .ok d) : ∃ b, Bnf.ofDeclaration d = .ok b := by
  unfold ofText at h
  split at h
  · cases h
  · rw [Bnf.ofDeclaration, Reading.isSound_initial.faultOf?_eq_none h]
    exact ⟨_, rfl⟩

/-- No file gives a declaration that cannot be lowered. -/
theorem Grammar.ofFile_ne_lowering [Platform] (bytes : ByteArray) (fault : LoweringFault) :
    ofFile bytes ≠ .error (.lowering fault) := by
  unfold ofFile textOfFile
  cases Source.decodeFile bytes with
  | none => exact fun h => by cases h
  | some text =>
    dsimp only [ofText, bnfOfText, declarationOfText]
    cases hd : Declaration.ofText text with
    | error e => exact fun h => by cases h
    | ok d =>
      obtain ⟨b, hb⟩ := Declaration.exists_ofDeclaration_of_ofText hd
      dsimp only [Except.mapError]
      rw [hb]
      cases hg : ofBnf b with
      | error e => simp [hg]
      | ok g => simp [hg]

theorem Catalog.exists_requireNonterminal_eq_error {c : Catalog} {n : Name} :
    (∃ e, c.requireNonterminal n = .error e) ↔ c.isNonterminal n = false := by
  rw [requireNonterminal]
  cases c.isNonterminal n <;> simp

namespace Command

variable {bytes : ByteArray} {found : Except ReadError ByteArray} {g : Grammar} {e : Failure}

/-! ## 2. Stages -/

theorem traced_append (texts texts' : List Text) :
    traced (texts ++ texts') = traced texts ++ traced texts' := List.map_append

namespace Task

section

variable [Platform]

/-- What a run makes of the grammar that it has got, or of the failure to get one.  All that it has
written until then are debug messages. -/
inductive Continues (task : Task) : Except Failure Grammar → Outcome → Prop
  | failed (traces : List Text) (e : Failure) :
    Continues task (.error e) (.failed (traced traces) (failureReport e))
  | performed (traces : List Text) (b : Bnf) (g : Grammar) :
    Continues task (.ok g) (task.perform (traced traces) b g)

/-- A run on a text goes through the stages that make a grammar of it. -/
theorem continues_ofText (task : Task) (text : List Char) :
    task.Continues (Grammar.ofText text) (task.runOnText text) := by
  unfold runOnText Grammar.ofText bnfOfText
  cases declarationOfText text with
  | error e => exact .failed [] e
  | ok d =>
    dsimp only
    cases Bnf.ofDeclaration d with
    | error e => exact .failed [declarationMessage d] (.lowering e)
    | ok b =>
      dsimp only [Except.mapError]
      rw [← traced_append]
      cases Grammar.ofBnf b with
      | error e => exact .failed _ (.grammar e)
      | ok g =>
        dsimp only
        rw [← traced_append]
        exact .performed _ b g

/-- A run on a file goes through the stages that make a grammar of it. -/
theorem continues_ofFile (task : Task) (path : Text) (bytes : ByteArray) :
    task.Continues (Grammar.ofFile bytes) (task.run path (.ok bytes)) := by
  dsimp only [run]
  rw [Grammar.ofFile]
  cases textOfFile bytes with
  | error e => exact .failed [] e
  | ok text => exact task.continues_ofText text

end

/-- A grammar that has no answer is reported; otherwise the answer is written. -/
theorem perform_cases (task : Task) (before : Transcript) (b : Bnf) (g : Grammar) :
    (∃ e, task.answer g = .error e ∧ task.perform before b g =
      .failed (before ++ traced (task.messages b g)) (.ok (grammarReport e))) ∨
    ∃ code texts, task.answer g = .ok (code, texts) ∧ task.perform before b g =
      .printing (before ++ traced (task.messages b g)) code texts := by
  unfold perform
  cases task.answer g with
  | error e => exact .inl ⟨e, rfl, rfl⟩
  | ok answer => exact .inr ⟨answer.1, answer.2, rfl, rfl⟩

end Task

/-! ## 3. Streams and reports -/

theorem showLines_append (t t' : Transcript) :
    showLines (t ++ t') = showLines t ++ showLines t' := by
  rw [showLines, List.map_append, String.join_append]
  rfl

theorem outputOf_append (t t' : Transcript) :
    outputOf (t ++ t') = outputOf t ++ outputOf t' := by
  rw [outputOf, List.filter_append, showLines_append]
  rfl

theorem errorsOf_append (debug : Bool) (t t' : Transcript) :
    errorsOf debug (t ++ t') = errorsOf debug t ++ errorsOf debug t' := by
  rw [errorsOf, List.filter_append, showLines_append]
  rfl

@[simp] theorem outputOf_traced (texts : List Text) : outputOf (traced texts) = "" := by
  simp [outputOf, traced, showLines, List.filter_map, Function.comp_def]

@[simp] theorem outputOf_reported (texts : List Text) : outputOf (reported texts) = "" := by
  simp [outputOf, reported, showLines, List.filter_map, Function.comp_def]

theorem errorsOf_traced (debug : Bool) (texts : List Text) :
    errorsOf debug (traced texts) = showLines (if debug then traced texts else []) := by
  cases debug <;> simp [errorsOf, traced, List.filter_map, Function.comp_def]

@[simp] theorem errorsOf_reported (debug : Bool) (texts : List Text) :
    errorsOf debug (reported texts) = showLines (reported texts) := by
  cases debug <;> simp [errorsOf, reported, List.filter_map, Function.comp_def]

/-- Lines that can all be written do not keep the run from its exit code. -/
theorem Outcome.printing_ending_eq_exited_iff {before : Transcript} {code code' : Nat}
    {texts : List Text} : (printing before code texts).ending = .exited code' ↔
      code = code' ∧ ∀ line ∈ texts, line.isWritable = true := by
  rw [printing, ← List.all_eq_true]
  cases texts.all Text.isWritable <;> simp

theorem Outcome.exists_printing_ending_eq_escaped_iff {before : Transcript} {code : Nat}
    {texts : List Text} : (∃ escape, (printing before code texts).ending = .escaped escape) ↔
      ∃ line ∈ texts, line.isWritable = false := by
  have hany : (∃ line ∈ texts, line.isWritable = false) ↔ texts.all Text.isWritable = false := by
    simp
  rw [printing, hany]
  cases texts.all Text.isWritable <;> simp

/-- A report names the kind of the fault.  Its message stands behind that, or on a line of its own
if the text could not be read. -/
inductive IsReport : List Text → Prop
  | syntaxError (message : Text) : IsReport ["[SYNTAX ERROR]", message]
  | error (message : Text) : IsReport ["[ERROR] " ++ message]

theorem isReport_grammarReport (e : GrammarError) : IsReport (grammarReport e) :=
  .error (e.label ++ " " ++ e.message)

/-- A file that cannot be read is reported, unless no file can have the path. -/
theorem readReport_cases (path : Text) (e : ReadError) :
    (e = .impossible ∧ readReport path e = .error .impossiblePath) ∨
      (e ≠ .impossible ∧ ∃ report, IsReport report ∧ readReport path e = .ok report) := by
  cases e with
  | impossible => exact .inl ⟨rfl, rfl⟩
  | _ => exact .inr ⟨by simp, _, .error _, rfl⟩

section

variable [Platform]

/-- The faults that escape before there is a grammar: a path that no file can have, bytes that are
not UTF-8, and a literal that holds a null character, if that is not reported. -/
inductive Escapes : Except ReadError ByteArray → Prop
  | path : Escapes (.error .impossible)
  | encoding {bytes : ByteArray} (h : Grammar.ofFile bytes = .error .encoding) :
    Escapes (.ok bytes)
  | literal {bytes : ByteArray} {text : List Char} {t : Token} (hnull : Platform.reportsNull = false)
    (h : Grammar.ofFile bytes = .error (.source text (.literal .null t))) : Escapes (.ok bytes)

/-- A failure escapes or is reported. -/
theorem failureReport_cases (hg : Grammar.ofFile bytes = .error e) :
    (Escapes (.ok bytes) ∧ ∃ escape, failureReport e = .error escape) ∨
      (¬ Escapes (.ok bytes) ∧ ∃ report, IsReport report ∧ failureReport e = .ok report) := by
  have hreported (hne : e ≠ .encoding) (hliteral : ∀ text t, e = .source text (.literal .null t) →
      Platform.reportsNull = true) : ¬ Escapes (.ok bytes) := by
    rintro (_ | hg' | ⟨hnull, hg'⟩) <;> cases hg.symm.trans hg'
    · exact hne rfl
    · exact Bool.false_ne_true (hnull.symm.trans (hliteral _ _ rfl))
  cases e with
  | encoding => exact .inl ⟨.encoding hg, _, rfl⟩
  | lowering e => exact absurd hg (Grammar.ofFile_ne_lowering bytes e)
  | grammar e => exact .inr ⟨hreported (by simp) (by simp), _, isReport_grammarReport e, rfl⟩
  | source text e =>
    cases e with
    | literal fault t =>
      cases fault with
      | malformed => exact .inr ⟨hreported (by simp) (by simp), _, .syntaxError _, rfl⟩
      | null =>
        rw [failureReport]
        cases hnull : Platform.reportsNull with
        | false => exact .inl ⟨.literal hnull hg, _, rfl⟩
        | true => exact .inr ⟨hreported (by simp) fun _ _ _ => hnull, _, .syntaxError _, rfl⟩
    | _ => exact .inr ⟨hreported (by simp) (by simp), _, .syntaxError _, rfl⟩

theorem not_escapes_of_ok (hg : Grammar.ofFile bytes = .ok g) : ¬ Escapes (.ok bytes) := by
  rintro (_ | hg' | ⟨-, hg'⟩) <;> cases hg.symm.trans hg'

end

/-! ## 4. Tasks -/

namespace Task

variable {task : Task}

/-- The grammar has no answer to the question of the task. -/
def HasNoAnswer (g : Grammar) : Task → Prop
  | check => False
  | sets only => ∃ n ∈ only, n ≠ "" ∧ ∃ e, g.catalog.requireNonterminal n = .error e
  | first symbols => ∃ e, g.firstOf symbols = .error e

/-- Only a non-terminal that was asked for by name can be one that is not declared. -/
theorem hasNoAnswer_sets_iff {only : Option Name} : (sets only).HasNoAnswer g ↔
    ∃ n, (selected g only).find? (! g.catalog.isNonterminal ·) = some n := by
  have hall : g.catalog.nonterminals.find? (! g.catalog.isNonterminal ·) = none := by simp
  cases only with
  | none => simp [HasNoAnswer, selected, hall]
  | some n =>
    by_cases hn : n = ""
    · simp [HasNoAnswer, selected, Text.isEmpty_iff, hn, hall]
    · simp [HasNoAnswer, selected, Text.isEmpty_iff, hn, Catalog.exists_requireNonterminal_eq_error]

theorem hasNoAnswer_iff : task.HasNoAnswer g ↔ ∃ e, task.answer g = .error e := by
  cases task with
  | check => simp [HasNoAnswer, answer]
  | sets only =>
    rw [hasNoAnswer_sets_iff, answer]
    cases (selected g only).find? (! g.catalog.isNonterminal ·) <;> simp
  | first symbols =>
    rw [HasNoAnswer, answer]
    cases g.firstOf symbols <;> simp [Except.map]

variable {code : Nat} {texts : List Text}

theorem code_eq_of_answer (h : task.answer g = .ok (code, texts)) :
    code = if task = .check ∧ g.isLL1 = false then 1 else 0 := by
  cases task with
  | check =>
    cases h
    cases g.isLL1 <;> rfl
  | sets only =>
    rw [answer] at h
    split at h <;> cases h
    rfl
  | first symbols =>
    rw [answer] at h
    cases hanswer : g.firstOf symbols <;> rw [hanswer] at h <;> cases h
    rfl

theorem code_eq_zero_or_one (h : task.answer g = .ok (code, texts)) : code = 0 ∨ code = 1 := by
  rw [code_eq_of_answer h]
  split
  · exact .inr rfl
  · exact .inl rfl

theorem code_eq_one_iff (h : task.answer g = .ok (code, texts)) :
    code = 1 ↔ task = .check ∧ g.isLL1 = false := by
  rw [code_eq_of_answer h]
  split <;> simp_all

section

variable [Platform]

/-- A task fails if nothing can be read, if what is read gives no grammar, or if the grammar has no
answer. -/
inductive Fails (task : Task) : Except ReadError ByteArray → Prop
  | unread (e : ReadError) : Fails task (.error e)
  | ungrammatical {bytes : ByteArray} {e : Failure} (h : Grammar.ofFile bytes = .error e) :
    Fails task (.ok bytes)
  | unanswered {bytes : ByteArray} {g : Grammar} (h : Grammar.ofFile bytes = .ok g)
    (hg : task.HasNoAnswer g) : Fails task (.ok bytes)

/-- The grammar has an answer, but there is a surrogate in the output. -/
def IsUnwritable (task : Task) (found : Except ReadError ByteArray) : Prop :=
  ∃ bytes g code texts, found = .ok bytes ∧ Grammar.ofFile bytes = .ok g ∧
    task.answer g = .ok (code, texts) ∧ ∃ line ∈ texts, line.isWritable = false

theorem fails_iff_of_ofFile (hg : Grammar.ofFile bytes = .ok g) :
    task.Fails (.ok bytes) ↔ task.HasNoAnswer g := by
  refine ⟨fun h => ?_, .unanswered hg⟩
  cases h with
  | ungrammatical h => cases hg.symm.trans h
  | unanswered h ha =>
    cases hg.symm.trans h
    exact ha

/-- A task with an answer does not fail. -/
theorem not_fails_of_answer (hg : Grammar.ofFile bytes = .ok g)
    (ha : task.answer g = .ok (code, texts)) : ¬ task.Fails (.ok bytes) := by
  rw [fails_iff_of_ofFile hg, hasNoAnswer_iff, ha]
  simp

theorem isUnwritable_iff_of_answer (hg : Grammar.ofFile bytes = .ok g)
    (ha : task.answer g = .ok (code, texts)) :
    task.IsUnwritable (.ok bytes) ↔ ∃ line ∈ texts, line.isWritable = false := by
  refine ⟨?_, fun h => ⟨bytes, g, code, texts, rfl, hg, ha, h⟩⟩
  rintro ⟨bytes', g', code', texts', h, hg', ha', hline⟩
  cases h
  cases hg.symm.trans hg'
  cases ha.symm.trans ha'
  exact hline

theorem IsUnwritable.not_fails (h : task.IsUnwritable found) : ¬ task.Fails found := by
  obtain ⟨bytes, g, code, texts, rfl, hg, ha, -⟩ := h
  exact not_fails_of_answer hg ha

theorem fails_of_escapes (task : Task) (h : Escapes found) : task.Fails found := by
  cases h with
  | path => exact .unread _
  | encoding h => exact .ungrammatical h
  | literal _ h => exact .ungrammatical h

end

end Task

/-! ## 5. Runs -/

section

variable [Platform] {task : Task} {o : Outcome}

/-- The three ways in which a run goes: a fault escapes, the task fails and that is reported, or its
output is written.  All that is written before are debug messages. -/
inductive Task.Ends (task : Task) (found : Except ReadError ByteArray) : Outcome → Prop
  | escaped (traces : List Text) {escape : Escape} (h : Escapes found) :
    Ends task found (.failed (traced traces) (.error escape))
  | failed (traces : List Text) {report : List Text} (h : ¬ Escapes found) (hf : task.Fails found)
    (hr : IsReport report) : Ends task found (.failed (traced traces) (.ok report))
  | done (traces : List Text) {texts : List Text} {code : Nat} {bytes : ByteArray} {g : Grammar}
    (h : found = .ok bytes) (hg : Grammar.ofFile bytes = .ok g)
    (ha : task.answer g = .ok (code, texts)) :
    Ends task found (.printing (traced traces) code texts)

/-- What becomes of a failure is decided by whether it is reported. -/
theorem Task.Continues.ends {x : Except Failure Grammar} (h : task.Continues x o)
    (hx : Grammar.ofFile bytes = x) : task.Ends (.ok bytes) o := by
  cases h with
  | failed traces e =>
    obtain ⟨hescapes, escape, hr⟩ | ⟨hescapes, report, hreport, hr⟩ := failureReport_cases hx
    · rw [hr]
      exact .escaped _ hescapes
    · rw [hr]
      exact .failed _ hescapes (.ungrammatical hx) hreport
  | performed traces b g =>
    obtain ⟨e, ha, hperform⟩ | ⟨code, texts, ha, hperform⟩ := task.perform_cases (traced traces) b g
    · rw [hperform, ← traced_append]
      exact .failed _ (not_escapes_of_ok hx) (.unanswered hx (hasNoAnswer_iff.2 ⟨e, ha⟩))
        (isReport_grammarReport e)
    · rw [hperform, ← traced_append]
      exact .done _ rfl hx ha

/-- **Every run.** -/
theorem Task.ends_run (task : Task) (path : Text) (found : Except ReadError ByteArray) :
    task.Ends found (task.run path found) := by
  cases found with
  | error e =>
    rw [run]
    obtain ⟨rfl, hr⟩ | ⟨hne, report, hreport, hr⟩ := readReport_cases path e
    · rw [hr]
      exact .escaped [] .path
    · rw [hr]
      exact .failed [] (fun h => by cases h; exact hne rfl) (.unread e) hreport
  | ok bytes => exact (task.continues_ofFile path bytes).ends rfl

namespace Task.Ends

theorem exists_eq_escaped_iff (h : task.Ends found o) :
    (∃ escape, o.ending = .escaped escape) ↔ Escapes found ∨ task.IsUnwritable found := by
  cases h with
  | escaped _ h => exact iff_of_true ⟨_, rfl⟩ (.inl h)
  | failed _ h hf =>
    refine iff_of_false ?_ (not_or.2 ⟨h, fun hu => hu.not_fails hf⟩)
    rintro ⟨escape, hending⟩
    cases hending
  | done _ h hg ha =>
    subst h
    rw [Outcome.exists_printing_ending_eq_escaped_iff, isUnwritable_iff_of_answer hg ha]
    exact (or_iff_right (not_escapes_of_ok hg)).symm

/-- A run that fails writes no output. -/
theorem outputOf_eq (h : task.Ends found o) (hf : task.Fails found) :
    outputOf o.transcript = "" := by
  cases h with
  | escaped => exact outputOf_traced _
  | failed => rw [Outcome.failed, outputOf_append, outputOf_traced, outputOf_reported]; rfl
  | done _ h hg ha => exact absurd (h ▸ hf) (not_fails_of_answer hg ha)

section

variable {code : Nat}

theorem exit_cases (h : task.Ends found o) (ho : o.ending = .exited code) :
    code = 0 ∨ code = 1 ∨ code = 2 := by
  cases h with
  | escaped => cases ho
  | failed =>
    cases ho
    exact .inr (.inr rfl)
  | done _ _ _ ha =>
    obtain ⟨rfl, -⟩ := Outcome.printing_ending_eq_exited_iff.1 ho
    exact (code_eq_zero_or_one ha).imp_right .inl

theorem exit_eq_two_iff (h : task.Ends found o) (ho : o.ending = .exited code) :
    code = 2 ↔ task.Fails found := by
  cases h with
  | escaped => cases ho
  | failed _ _ hf =>
    cases ho
    exact iff_of_true rfl hf
  | done _ h hg ha =>
    subst h
    obtain ⟨rfl, -⟩ := Outcome.printing_ending_eq_exited_iff.1 ho
    have hcode := code_eq_zero_or_one ha
    exact iff_of_false (by omega) (not_fails_of_answer hg ha)

theorem exit_eq_one_iff (h : task.Ends found o) (ho : o.ending = .exited code) :
    code = 1 ↔ task = .check ∧
      ∃ bytes g, found = .ok bytes ∧ Grammar.ofFile bytes = .ok g ∧ g.isLL1 = false := by
  cases h with
  | escaped => cases ho
  | failed _ _ hf =>
    cases ho
    refine iff_of_false (by decide) ?_
    -- a grammar always has an answer to a check
    rintro ⟨rfl, bytes, g, rfl, hg, -⟩
    exact (fails_iff_of_ofFile hg).1 hf
  | @done _ _ _ bytes g h hg ha =>
    subst h
    obtain ⟨rfl, -⟩ := Outcome.printing_ending_eq_exited_iff.1 ho
    rw [code_eq_one_iff ha]
    refine and_congr_right fun _ => ⟨fun hll1 => ⟨bytes, g, rfl, hg, hll1⟩, ?_⟩
    rintro ⟨bytes', g', h', hg', hll1⟩
    cases h'
    cases hg.symm.trans hg'
    exact hll1

/-- A run that fails ends the error stream with its report. -/
theorem exists_errorsOf_eq (h : task.Ends found o) (ho : o.ending = .exited 2) (debug : Bool) :
    ∃ traces report, IsReport report ∧ errorsOf debug o.transcript =
      showLines (if debug then traced traces else []) ++ showLines (reported report) := by
  cases h with
  | escaped => cases ho
  | @failed traces report _ _ hr =>
    refine ⟨traces, report, hr, ?_⟩
    rw [Outcome.failed, errorsOf_append, errorsOf_traced, errorsOf_reported]
  | done _ _ _ ha =>
    obtain ⟨rfl, -⟩ := Outcome.printing_ending_eq_exited_iff.1 ho
    cases code_eq_zero_or_one ha <;> contradiction

end

end Task.Ends

end

/-! ## 6. Command lines -/

namespace Word

/-- What an option spells is that option. -/
theorem spelled?_ne_plain {flags : List Flag} {t text : Text} {attached : Option Text} :
    spelled? flags t attached ≠ some (.plain text) := by
  unfold spelled?
  split
  · simp
  · cases flags.find? (·.long = t) <;> simp

theorem eq_of_unspelled {t text : Text} (h : unspelled t = .plain text) : text = t := by
  unfold unspelled at h
  split at h <;> cases h
  rfl

/-- A word with a dash in front is plain only if it spells nothing. -/
theorem eq_of_dashed? {flags : List Flag} {t text : Text}
    (h : dashed? flags t = some (.plain text)) : text = t := by
  unfold dashed? at h
  dsimp only at h
  split at h
  · rename_i hw
    cases h
    exact absurd hw spelled?_ne_plain
  · rename_i hw
    cases h
    obtain ⟨value, -, hvalue⟩ := Option.bind_eq_some_iff.1 hw
    exact absurd hvalue spelled?_ne_plain
  · split at h
    · split at h
      · exact eq_of_unspelled (Option.some.inj h)
      · cases h
      · cases h
    · split at h
      · cases h
      · exact eq_of_unspelled (Option.some.inj h)

/-- A word that is plain stands for itself. -/
theorem eq_of_classify?_eq_plain {flags : List Flag} {t text : Text}
    (h : classify? flags t = some (.plain text)) : text = t := by
  unfold classify? at h
  split at h
  · split at h
    · exact eq_of_dashed? h
    · cases h
      rfl
  · cases h
    rfl

end Word

theorem Subcommand.ofName?_eq_check {t : Text} :
    Subcommand.ofName? t = some .check ↔ t = "check" := by
  unfold Subcommand.ofName?
  split
  · simp_all
  · split
    · simp_all
    · split <;> simp_all

namespace Scanned

/-- An option acts, with the words that it takes, before what is left behind it is read. -/
theorem takeWords_option {sub : Subcommand} {r : Scanned} {w : Word} {ws : List Word}
    (hw : ¬ w.isPositional = true) (hunknown : ¬ w = .unknown) :
    r.takeWords sub (w :: ws) =
      match splitOption? sub.flags w ws with
      | none => .error .refused
      | some (before, last, value, left) =>
        (r.actOn before last value).bind fun r => takeWords sub r left := by
  rw [takeWords, if_neg hw, if_neg hunknown]
  split
  · rename_i hsplit
    rw [hsplit]
  · rename_i before last value left hsplit
    simp only [hsplit]
    cases r.actOn before last value <;> rfl

end Scanned

namespace Invocation

variable {args : List Text} {i : Invocation}

/-- A command line that begins with a subcommand. -/
theorem ofArgs_cons {name : Text} {sub : Subcommand} (h : Subcommand.ofName? name = some sub)
    (args : List Text) : ofArgs (name :: args) = ofWords sub args := by
  have hname : name = "check" ∨ name = "sets" ∨ name = "first" := by
    by_contra hnone
    rw [not_or, not_or] at hnone
    simp [Subcommand.ofName?, hnone] at h
  have hplain : Word.classify? [.help] name = some (.plain name) := by
    rcases hname with rfl | rfl | rfl <;> decide
  rw [ofArgs, hplain]
  simp only [h]

theorem task_of_ofWords {sub : Subcommand} (h : ofWords sub args = .ok i) :
    i.task = .check ↔ sub = .check := by
  unfold ofWords at h
  split at h
  · cases h
  · rename_i ws _
    cases hr : Scanned.initial.takeWords sub ws with
    | error e =>
      rw [hr] at h
      cases h
    | ok r =>
      rw [hr] at h
      dsimp only [Except.bind, Scanned.finish] at h
      split at h
      · cases h
        cases sub <;> simp
      · cases h

theorem bind_refused_ne_ok {α : Type} (x : Except Stop α) :
    (x.bind fun _ => .error .refused) ≠ .ok i := by
  cases x <;> simp [Except.bind]

/-- Nothing stands in front of the subcommand. -/
theorem task_of_ofArgs (h : ofArgs args = .ok i) :
    i.task = .check ↔ args.head? = some ("check" : Text) := by
  cases args with
  | nil => cases h
  | cons t ts =>
    rw [ofArgs] at h
    split at h
    · rename_i name hw
      split at h
      · cases h
      · rename_i sub hsub
        rw [task_of_ofWords h, List.head?_cons, Option.some_inj, ← Word.eq_of_classify?_eq_plain hw,
          ← Subcommand.ofName?_eq_check, hsub, Option.some_inj]
    · exact absurd h (bind_refused_ne_ok _)
    · split at h
      · cases h
      · split at h
        · cases h
        · exact absurd h (bind_refused_ne_ok _)
    · cases h

/-- **Exit codes.**  Let a command line be accepted, and let something or nothing be found at its
path.  A fault escapes exactly if no file can have the path, the bytes are not UTF-8, a literal
holds a null character that is not reported, or the output has a surrogate in it.  In the first
three cases the task fails, in the last it does not.  If the task fails, no output is written.

Every other run has exit code 0, 1 or 2: it is 2 exactly if the task fails, and then the errors end
with a report, behind the debug messages if these are asked for; it is 1 exactly if the subcommand
is `check` and the file gives a grammar that is not LL(1). -/
theorem exit_of_ofArgs [Platform] (hi : ofArgs args = .ok i)
    (found : Except ReadError ByteArray) :
    ((∃ escape, (i.run found).ending = .escaped escape) ↔
      Escapes found ∨ i.task.IsUnwritable found) ∧
    (Escapes found → i.task.Fails found) ∧
    (i.task.IsUnwritable found → ¬ i.task.Fails found) ∧
    (i.task.Fails found → i.output (i.run found) = "") ∧
    ∀ code, (i.run found).ending = .exited code →
      (code = 0 ∨ code = 1 ∨ code = 2) ∧
      (code = 2 ↔ i.task.Fails found) ∧
      (code = 1 ↔ args.head? = some ("check" : Text) ∧
        ∃ bytes g, found = .ok bytes ∧ Grammar.ofFile bytes = .ok g ∧ g.isLL1 = false) ∧
      (code = 2 → ∃ traces report, IsReport report ∧ i.errors (i.run found) =
        showLines (if i.debug then traced traces else []) ++ showLines (reported report)) := by
  have hends := i.task.ends_run i.file found
  rw [← task_of_ofArgs hi]
  refine ⟨hends.exists_eq_escaped_iff, i.task.fails_of_escapes, Task.IsUnwritable.not_fails,
    hends.outputOf_eq, fun code hcode => ?_⟩
  refine ⟨hends.exit_cases hcode, hends.exit_eq_two_iff hcode, hends.exit_eq_one_iff hcode, ?_⟩
  rintro rfl
  exact hends.exists_errorsOf_eq hcode i.debug

/-- A check of two equal alternatives ends with exit code 1. -/
theorem exit_of_ambiguous :
    letI := Platform.bare
    (run ⟨.check, "g.g", false⟩ (.ok "S : 'a' | 'a' ;".toUTF8)).ending = .exited 1 ∧
      ∃ g, Grammar.ofFile "S : 'a' | 'a' ;".toUTF8 = .ok g ∧ g.isLL1 = false := by
  let := Platform.bare
  have hi : ofArgs ["check", "g.g"] = .ok ⟨.check, "g.g", false⟩ := by decide +kernel
  have hexit : (run ⟨.check, "g.g", false⟩ (.ok "S : 'a' | 'a' ;".toUTF8)).ending = .exited 1 := by
    decide +kernel
  obtain ⟨-, -, -, -, hcode⟩ := exit_of_ofArgs hi (.ok "S : 'a' | 'a' ;".toUTF8)
  obtain ⟨-, bytes, g, hfound, hg, hll1⟩ := (hcode 1 hexit).2.2.1.1 rfl
  cases hfound
  exact ⟨hexit, g, hg, hll1⟩

/-- The tables of a surrogate are written up to the first line that it stands in. -/
example :
    letI := Platform.bare
    (run ⟨.sets none, "g.g", false⟩ (.ok "S : '\\ud800' ;".toUTF8)).ending = .escaped .unwritable ∧
      outputOf (run ⟨.sets none, "g.g", false⟩ (.ok "S : '\\ud800' ;".toUTF8)).transcript =
        "[NULLABLE]\n(none)\n\n[FIRST(nonterminals)]\n" := by
  decide +kernel

/-- A file of one byte that is not UTF-8 ends no run with an exit code. -/
theorem run_eq_encoding :
    letI := Platform.bare
    ∃ i, ofArgs ["check", "g.g"] = .ok i ∧ i.run (.ok ⟨#[0xFF]⟩) = ⟨.escaped .encoding, []⟩ :=
  ⟨⟨.check, "g.g", false⟩, by decide +kernel, by decide +kernel⟩

end Invocation

end Command

end Lookahead
