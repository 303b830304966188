import Lookahead.Command.Session
import Lookahead.Proofs.Director
import Lookahead.Proofs.Outcome
import Lookahead.Proofs.Query
import Mathlib.Data.List.TakeWhile

/-!
# A session shows the transcript of its run

## 1. What steps write

`Script.Writes` says of some steps which lines they write and how they end, whatever the streams
hold already.  Debug messages are among the lines, and come onto the stream if they are wanted.
Steps that follow one another write one behind the other (`Script.Writes.bind`); each of the steps
of a run is described once, and a run is put together from these descriptions.

Steps that write output are described by what they are to write (`Script.Prints`), since the first
line that the stream does not take ends them.

## 2. Questions that are not refused

While tables are written, the grammar is asked for the entries of declared non-terminals only, and
those it has.  So no question is refused with half of the output written.

## 3. Sessions

The lines that a session writes are the transcript of the run, and it ends like the run
(`Invocation.session_eq`).
-/

namespace Lookahead

theorem Grammar.productionsFor_of_mem {g : Grammar} {n : Name}
    (hn : n ∈ g.catalog.nonterminals) : g.productionsFor n = .ok (rhssOf g.productions n) := by
  rw [productionsFor, Catalog.requireNonterminal_of_mem hn]
  rfl

theorem Grammar.followSet_of_mem {g : Grammar} {n : Name} (hn : n ∈ g.catalog.nonterminals) :
    g.followSet n = .ok (g.follow.get n) := by
  rw [followSet, Catalog.requireNonterminal_of_mem hn]
  rfl

theorem Grammar.firstSet_of_mem {g : Grammar} {n : Name} (hn : n ∈ g.catalog.nonterminals) :
    g.firstSet [n] = .ok (firstOfSequence g.first g.nullable [n]).1 := by
  have hdeclared : ∀ m ∈ [n], g.catalog.contains m = true :=
    fun m hm => Catalog.contains_iff.2 (.inr (List.mem_singleton.1 hm ▸ hn))
  rw [firstSet, firstOf_of_declared hdeclared]
  rfl

namespace Command

open Grammar

variable {debug : Bool}

/-! ## 1. What steps write -/

/-- What lines add to the streams. -/
def Streams.add (debug : Bool) (s : Streams) (t : Transcript) : Streams :=
  ⟨s.output ++ outputOf t, s.errors ++ errorsOf debug t⟩

namespace Streams

theorem add_nil (s : Streams) : s.add debug [] = s := by
  simp [add, outputOf, errorsOf, showLines]

theorem add_append (s : Streams) (t t' : Transcript) :
    s.add debug (t ++ t') = (s.add debug t).add debug t' := by
  simp only [add, outputOf_append, errorsOf_append, String.append_assoc]

end Streams

namespace Script

variable {α β : Type} {x : Script α} {f : α → Script β} {a : α} {t t' : Transcript} {fault : Fault}

/-- The steps write the lines and end so, whatever the streams hold already. -/
def Writes (debug : Bool) (x : Script α) (t : Transcript) (r : Except Fault α) : Prop :=
  ∀ s : Streams, x.run s = (r, s.add debug t)

namespace Writes

theorem pure (a : α) : Writes debug (pure a) [] (.ok a) :=
  fun s => by rw [s.add_nil]; rfl

theorem throw (fault : Fault) : Writes debug (throw fault : Script α) [] (.error fault) :=
  fun s => by rw [s.add_nil]; rfl

/-- What comes next is written behind it. -/
theorem bind {r : Except Fault β} (hx : Writes debug x t (.ok a))
    (hf : Writes debug (f a) t' r) : Writes debug (x >>= f) (t ++ t') r := by
  intro s
  have h : (x >>= f).run s = (f a).run (s.add debug t) := by
    show ExceptT.bindCont f (x.run s).1 (x.run s).2 = _
    rw [hx s]
    rfl
  rw [h, hf, s.add_append]

/-- Nothing comes behind a fault. -/
theorem bind_error (hx : Writes debug x t (.error fault)) :
    Writes debug (x >>= f) t (.error fault) := by
  intro s
  show ExceptT.bindCont f (x.run s).1 (x.run s).2 = _
  rw [hx s]
  rfl

/-- Steps that write nothing leave what comes next as it is. -/
theorem bind_silent {r : Except Fault β} (hx : Writes debug x [] (.ok a))
    (hf : Writes debug (f a) t r) : Writes debug (x >>= f) t r :=
  hx.bind hf

/-- Nothing more is written if what comes next writes nothing. -/
theorem bind_end {r : Except Fault β} (hx : Writes debug x t (.ok a))
    (hf : Writes debug (f a) [] r) : Writes debug (x >>= f) t r := by
  rw [← List.append_nil t]
  exact hx.bind hf

/-- A value is made of the last one. -/
theorem andReturn (hx : Writes debug x t (.ok a)) (f : α → β) :
    Writes debug (do return f (← x)) t (.ok (f a)) :=
  hx.bind_end (.pure (f a))

/-- Steps for each member of a list. -/
theorem forM {l : List α} {f : α → Script Unit} {t : α → Transcript}
    (h : ∀ a ∈ l, Writes debug (f a) (t a) (.ok ())) :
    Writes debug (l.forM f) (l.flatMap t) (.ok ()) := by
  induction l with
  | nil => exact .pure ()
  | cons a l ih =>
    exact (h a List.mem_cons_self).bind (ih fun b hb => h b (List.mem_cons_of_mem a hb))

/-- Values for each member of a list, got without a word. -/
theorem mapM {l : List α} {f : α → Script β} {value : α → β}
    (h : ∀ a ∈ l, Writes debug (f a) [] (.ok (value a))) :
    Writes debug (l.mapM f) [] (.ok (l.map value)) := by
  induction l with
  | nil => exact .pure []
  | cons a l ih =>
    rw [List.mapM_cons]
    exact (h a List.mem_cons_self).bind
      ((ih fun b hb => h b (List.mem_cons_of_mem a hb)).bind (.pure (value a :: l.map value)))

end Writes

/-- The steps write the texts as lines of output and end with the value, unless a line cannot be
written: that ends them. -/
def Prints (debug : Bool) (x : Script α) (texts : List Text) (a : α) : Prop :=
  Writes debug x (printed (written texts))
    (if texts.all Text.isWritable then .ok a else .error .unwritable)

theorem printed_append (texts texts' : List Text) :
    printed (texts ++ texts') = printed texts ++ printed texts' := List.map_append

theorem written_eq_self {texts : List Text} (h : texts.all Text.isWritable = true) :
    written texts = texts := by
  rw [List.all_eq_true] at h
  exact List.takeWhile_eq_self_iff.2 h

/-- Behind lines that can be written, the next ones are. -/
theorem written_append (texts texts' : List Text) : written (texts ++ texts') =
    if texts.all Text.isWritable then texts ++ written texts' else written texts := by
  induction texts with
  | nil => rfl
  | cons text texts ih =>
    rw [List.cons_append, written, List.takeWhile_cons, List.all_cons]
    cases htext : text.isWritable with
    | false => simp [written, htext]
    | true =>
      have hcons : written (text :: texts) = text :: written texts := by simp [written, htext]
      rw [if_pos rfl, Bool.true_and, hcons, List.cons_append, ← apply_ite (text :: ·), ← ih]
      rfl

namespace Prints

variable {texts texts' : List Text}

/-- Steps that write nothing. -/
theorem of_silent (h : Writes debug x [] (.ok a)) : Prints debug x [] a := h

/-- What comes next is written behind it, if anything is. -/
theorem bind {b : β} (hx : Prints debug x texts a) (hf : Prints debug (f a) texts' b) :
    Prints debug (x >>= f) (texts ++ texts') b := by
  unfold Prints at *
  rw [written_append, List.all_append]
  cases htexts : texts.all Text.isWritable with
  | false =>
    rw [htexts] at hx
    exact hx.bind_error
  | true =>
    rw [htexts, written_eq_self htexts] at hx
    rw [if_pos rfl, printed_append, Bool.true_and]
    exact hx.bind hf

/-- A value is made of the last one. -/
theorem andReturn (hx : Prints debug x texts a) (f : α → β) :
    Prints debug (do return f (← x)) texts (f a) := by
  rw [← List.append_nil texts]
  exact hx.bind (.of_silent (.pure (f a)))

/-- Steps for each member of a list. -/
theorem forM {l : List α} {f : α → Script Unit} {texts : α → List Text}
    (h : ∀ a ∈ l, Prints debug (f a) (texts a) ()) :
    Prints debug (l.forM f) (l.flatMap texts) () := by
  induction l with
  | nil => exact .of_silent (.pure ())
  | cons a l ih =>
    exact (h a List.mem_cons_self).bind (ih fun b hb => h b (List.mem_cons_of_mem a hb))

end Prints

/-! ### The steps of a run -/

theorem prints_print (text : Text) : Prints debug (print text) [text] () := by
  rw [Prints, print, written, List.takeWhile_cons, List.all_cons]
  cases text.isWritable with
  | false => exact .throw .unwritable
  | true =>
    intro s
    simp [Streams.add, outputOf, errorsOf, printed, showLines, ← String.append_assoc]
    rfl

/-- A line for each member of a list. -/
theorem prints_lines (l : List α) (line : α → Text) :
    Prints debug (l.forM fun a => print (line a)) (l.map line) () := by
  rw [List.map_eq_flatMap]
  exact .forM fun a _ => prints_print (line a)

theorem prints_forM (texts : List Text) : Prints debug (texts.forM print) texts () := by
  simpa using prints_lines texts id

/-- A line of errors is a debug message, if these are wanted. -/
theorem writes_printError (text : Text) :
    Writes true (printError text) (traced [text]) (.ok ()) := by
  intro s
  simp [Streams.add, outputOf, errorsOf, traced, showLines, ← String.append_assoc]
  rfl

/-- Debug messages are written or not; they are lines of the run in either case. -/
theorem writes_ifDebug {x : Script Unit} {texts : List Text}
    (h : Writes true x (traced texts) (.ok ())) :
    Writes debug (ifDebug debug x) (traced texts) (.ok ()) := by
  cases debug with
  | true => exact h
  | false =>
    intro s
    rw [Streams.add, outputOf_traced, errorsOf_traced]
    simp [showLines]
    rfl

theorem writes_trace (texts : List Text) :
    Writes debug (trace debug texts) (traced texts) (.ok ()) := by
  refine writes_ifDebug ?_
  rw [traced, List.map_eq_flatMap]
  exact .forM fun text _ => writes_printError text

theorem writes_attempt_ok {x : Except Failure α} (h : x = .ok a) :
    Writes debug (attempt x) [] (.ok a) := by
  subst h
  exact .pure a

theorem writes_attempt_error {x : Except Failure α} {e : Failure} (h : x = .error e) :
    Writes debug (attempt x) [] (.error (.failed e)) := by
  subst h
  exact .throw (.failed e)

theorem writes_ask_ok {x : Except GrammarError α} (h : x = .ok a) :
    Writes debug (ask x) [] (.ok a) :=
  writes_attempt_ok (by rw [h]; rfl)

theorem writes_ask_error {x : Except GrammarError α} {e : GrammarError} (h : x = .error e) :
    Writes debug (ask x) [] (.error (.failed (.grammar e))) :=
  writes_attempt_error (by rw [h]; rfl)

/-! ## 2. Questions that are not refused -/

variable {g : Grammar}

/-- The alternatives of the declared non-terminals can be looked at. -/
theorem writes_warn (g : Grammar) : Writes true (warn g) (traced (emptyWarning g)) (.ok ()) := by
  have hrows : ∀ n ∈ g.catalog.nonterminals, Writes true
      (do return (n, ← ask (g.productionsFor n))) [] (.ok (n, rhssOf g.productions n)) :=
    fun n hn => (writes_ask_ok (productionsFor_of_mem hn)).andReturn (n, ·)
  have hempty : ((g.catalog.nonterminals.map fun n => (n, rhssOf g.productions n)).filter
      (·.2.isEmpty)).map (·.1) =
        g.catalog.nonterminals.filter fun n => (rhssOf g.productions n).isEmpty := by
    rw [List.filter_map, List.map_map]
    exact List.map_id _
  refine (Writes.mapM hrows).bind ?_
  simp only [hempty, emptyWarning]
  cases g.catalog.nonterminals.filter fun n => (rhssOf g.productions n).isEmpty with
  | nil => exact .pure ()
  | cons n ns => exact writes_printError _

/-- Non-terminals are looked up one after the other, until one is not declared. -/
theorem writes_requireNonterminals (debug : Bool) (g : Grammar) (ns : List Name) : Writes debug
    (ns.forM fun n => discard (ask (g.catalog.requireNonterminal n))) []
    (match ns.find? (! g.catalog.isNonterminal ·) with
      | some n => .error (.failed (.grammar (.unknownNonterminal n)))
      | none => .ok ()) := by
  induction ns with
  | nil => exact .pure ()
  | cons n ns ih =>
    cases hn : g.catalog.isNonterminal n with
    | true =>
      rw [List.find?_cons_of_neg (by simp [hn])]
      have hok := Catalog.requireNonterminal_of_mem (Catalog.isNonterminal_iff.1 hn)
      exact ((writes_ask_ok hok).andReturn fun _ => ()).bind ih
    | false =>
      rw [List.find?_cons_of_pos (by simp [hn])]
      have hmem : n ∉ g.catalog.nonterminals := by
        rw [← Catalog.isNonterminal_iff, hn]
        exact Bool.false_ne_true
      exact (writes_ask_error (Catalog.requireNonterminal_of_notMem hmem)).bind_error.bind_error

theorem prints_showPart (title : Text) {ns : List Name} {entries : Name → Script Unit}
    {texts : Name → List Text} (h : ∀ n ∈ ns, Prints debug (entries n) (texts n) ()) :
    Prints debug (showPart title ns entries) ("" :: title :: ns.flatMap texts) () :=
  (prints_forM [("" : Text), title]).bind (.forM h)

/-- The tables of declared non-terminals can be written to the end. -/
theorem prints_showTables (h : g.WellFormed) {only : Option Name}
    (hns : (Task.selected g only).find? (! g.catalog.isNonterminal ·) = none) :
    Prints debug (showTables g only) (Overview.ofNames g (Task.selected g only)).lines () := by
  rw [showTables]
  generalize Task.selected g only = ns at hns
  have hrequired := writes_requireNonterminals debug g ns
  rw [hns] at hrequired
  have hdeclared : ∀ n ∈ ns, n ∈ g.catalog.nonterminals := by
    simpa [Catalog.isNonterminal_iff] using hns
  have hlines : (Overview.ofNames g ns).lines =
      [("[NULLABLE]" : Text), if (ns.filter (· ∈ g.nullable)).isEmpty then "(none)"
        else commas (ns.filter (· ∈ g.nullable))] ++
      ((("" : Text) :: "[FIRST(nonterminals)]" :: ns.flatMap fun n =>
        [Overview.entryLine ((ns.map (·.length)).foldl max 0)
          (n, (firstOfSequence g.first g.nullable [n]).1)]) ++
      ((("" : Text) :: "[FOLLOW(nonterminals)]" :: ns.flatMap fun n =>
        [Overview.entryLine ((ns.map (·.length)).foldl max 0) (n, g.follow.get n)]) ++
      (("" : Text) :: "[DIRECTOR(alternatives)]" :: ns.flatMap fun n =>
        (directorRow g.productions g.first g.follow g.nullable n).map fun e =>
          ("  " : Text) ++ e.1.render ++ " : " ++ e.2.render))) := by
    simp [Overview.lines, Overview.ofNames, Overview.width, Function.comp_def, List.map_flatMap,
      ← List.map_eq_flatMap]
  rw [hlines]
  refine hrequired.bind_silent ((prints_forM _).bind
    ((prints_showPart _ fun n hn => ?first).bind
    ((prints_showPart _ fun n hn => ?follow).bind (prints_showPart _ fun n hn => ?director))))
  case first =>
    exact (writes_ask_ok (firstSet_of_mem (hdeclared n hn))).bind_silent (prints_print _)
  case follow =>
    exact (writes_ask_ok (followSet_of_mem (hdeclared n hn))).bind_silent (prints_print _)
  case director =>
    exact (writes_ask_ok (h.directorSets_eq (hdeclared n hn))).bind_silent (prints_lines _ _)

/-- If the grammar has no answer, that is found out before there is any output. -/
theorem writes_perform_error {task : Task} {e : GrammarError} (b : Bnf)
    (ha : task.answer g = .error e) : Writes debug (perform debug b g task)
      (traced (task.messages b g)) (.error (.failed (.grammar e))) := by
  cases task with
  | check => cases ha
  | sets only =>
    have hrequired := writes_requireNonterminals debug g (Task.selected g only)
    rw [Task.answer] at ha
    split at ha <;> cases ha
    rename_i n hn
    rw [hn] at hrequired
    exact (writes_trace _).bind_end hrequired.bind_error.bind_error
  | first symbols =>
    rw [Task.answer] at ha
    cases hanswer : g.firstOf symbols <;> rw [hanswer] at ha <;> cases ha
    exact (writes_ask_error hanswer).bind_error

/-- An answer is written behind the debug messages. -/
theorem writes_perform_ok (h : g.WellFormed) {task : Task} {code : Nat} {texts : List Text} (b : Bnf)
    (ha : task.answer g = .ok (code, texts)) : Writes debug (perform debug b g task)
      (traced (task.messages b g) ++ printed (written texts))
      (if texts.all Text.isWritable then .ok code else .error .unwritable) := by
  cases task with
  | check =>
    cases ha
    rw [Task.messages, traced_append, List.append_assoc]
    exact (writes_trace (bnfListing b)).bind ((writes_ifDebug (writes_warn g)).bind
      ((prints_forM (verdict g)).andReturn fun _ => if g.isLL1 then 0 else 1))
  | sets only =>
    rw [Task.answer] at ha
    split at ha <;> cases ha
    rename_i hns
    exact (writes_trace _).bind ((prints_showTables h hns).andReturn fun _ => 0)
  | first symbols =>
    rw [Task.answer] at ha
    cases hanswer : g.firstOf symbols <;> rw [hanswer] at ha <;> cases ha
    exact (writes_ask_ok hanswer).bind_silent ((prints_forM _).andReturn fun _ => 0)

/-! ## 3. Sessions -/

/-- What is shown of a run: how it has ended, and the lines that are wanted. -/
def shown (debug : Bool) (o : Outcome) : Session :=
  ⟨o.ending, ⟨outputOf o.transcript, errorsOf debug o.transcript⟩⟩

theorem add_empty (t : Transcript) :
    (⟨"", ""⟩ : Streams).add debug t = ⟨outputOf t, errorsOf debug t⟩ := by
  simp [Streams.add]

section

variable [Platform]

namespace Writes

variable {y : Script Nat} {code : Nat}

theorem session_ok (h : Writes debug y t (.ok code)) :
    y.session = shown debug ⟨.exited code, t⟩ := by
  rw [session, h, add_empty]
  rfl

/-- The report comes behind what has been written, if the fault does not escape. -/
theorem session_error (h : Writes debug y t (.error fault)) :
    y.session = shown debug (.failed t fault.report) := by
  rw [session, h, add_empty]
  cases hr : fault.report with
  | error escape => simp only [hr, shown, Outcome.failed]
  | ok report =>
    simp only [hr, shown, Outcome.failed, outputOf_append, outputOf_reported, errorsOf_append,
      errorsOf_reported, String.append_empty]

theorem session_printing {texts : List Text} (h : Writes debug y (t ++ printed (written texts))
    (if texts.all Text.isWritable then .ok code else .error .unwritable)) :
    y.session = shown debug (.printing t code texts) := by
  rw [Outcome.printing]
  cases htexts : texts.all Text.isWritable with
  | false =>
    rw [htexts] at h
    exact h.session_error
  | true =>
    rw [htexts] at h
    exact h.session_ok

end Writes

/-- What a task does with a grammar is what it writes and how it ends. -/
theorem session_perform (h : g.WellFormed) (task : Task) {y : Script (Bnf × Grammar)} {b : Bnf}
    (hy : Writes debug y t (.ok (b, g))) :
    (do let (b, g) ← y; perform debug b g task).session =
      shown debug (task.perform t b g) := by
  rw [Task.perform]
  have hbehind {t' : Transcript} {r : Except Fault Nat}
      (hperform : Writes debug (perform debug b g task) t' r) :
      Writes debug (do let (b, g) ← y; perform debug b g task) (t ++ t') r := hy.bind hperform
  cases ha : task.answer g with
  | error e => exact (hbehind (writes_perform_error b ha)).session_error
  | ok answer =>
    have hanswer := hbehind (writes_perform_ok h b ha)
    rw [← List.append_assoc] at hanswer
    exact hanswer.session_printing

/-! ### Loading -/

section Loading

variable {text : List Char} {d : Declaration} {b : Bnf}

/-- Each stage that is passed leaves its message. -/
theorem writes_load_ok (hd : declarationOfText text = .ok d) (hb : Bnf.ofDeclaration d = .ok b)
    (hg : Grammar.ofBnf b = .ok g) : Writes debug (load debug text)
      (traced [declarationMessage d] ++ traced [bnfMessage b] ++ traced [tablesMessage g])
      (.ok (b, g)) := by
  have htables : Writes debug (do trace debug [tablesMessage g]; return (b, g))
      (traced [tablesMessage g]) (.ok (b, g)) := (writes_trace _).andReturn fun _ => (b, g)
  rw [List.append_assoc]
  exact (writes_attempt_ok hd).bind_silent ((writes_trace _).bind
    ((writes_attempt_ok (by rw [hb]; rfl)).bind_silent ((writes_trace _).bind
    ((writes_attempt_ok (by rw [hg]; rfl)).bind_silent htables))))

/-- One message has been left when a declaration cannot be lowered. -/
theorem writes_load_unlowered {e : LoweringFault} (hd : declarationOfText text = .ok d)
    (hb : Bnf.ofDeclaration d = .error e) : Writes debug (load debug text)
      (traced [declarationMessage d]) (.error (.failed (.lowering e))) :=
  (writes_attempt_ok hd).bind_silent ((writes_trace _).bind_end
    (writes_attempt_error (by rw [hb]; rfl)).bind_error)

/-- Two messages have been left when a grammar is refused. -/
theorem writes_load_refused {e : GrammarError} (hd : declarationOfText text = .ok d)
    (hb : Bnf.ofDeclaration d = .ok b) (hg : Grammar.ofBnf b = .error e) :
    Writes debug (load debug text) (traced [declarationMessage d] ++ traced [bnfMessage b])
      (.error (.failed (.grammar e))) :=
  (writes_attempt_ok hd).bind_silent ((writes_trace _).bind
    ((writes_attempt_ok (by rw [hb]; rfl)).bind_silent ((writes_trace _).bind_end
    (writes_attempt_error (by rw [hg]; rfl)).bind_error)))

end Loading

/-- **One run.**  The streams show the transcript of the run. -/
theorem session_ofTask (task : Task) (debug : Bool) (path : Text)
    (found : Except ReadError ByteArray) :
    (ofTask task debug path found).session = shown debug (task.run path found) := by
  cases found with
  | error e => exact (Writes.throw (Fault.unread path e)).bind_error.session_error
  | ok bytes =>
    rw [Task.run]
    cases htext : textOfFile bytes with
    | error e => exact (writes_attempt_error htext).bind_error.session_error
    | ok text =>
      have hfetch : Writes debug (fetch path (.ok bytes)) [] (.ok text) := writes_attempt_ok htext
      -- once there is a text, a run fails where loading it fails
      have hfailed {t : Transcript} {fault : Fault} (h : Writes debug (load debug text) t
          (.error fault)) : Writes debug (ofTask task debug path (.ok bytes)) t (.error fault) :=
        hfetch.bind_silent h.bind_error
      simp only [Task.runOnText]
      cases hd : declarationOfText text with
      | error e => exact (hfailed (writes_attempt_error hd).bind_error).session_error
      | ok d =>
        simp only
        cases hb : Bnf.ofDeclaration d with
        | error e => exact (hfailed (writes_load_unlowered hd hb)).session_error
        | ok b =>
          simp only
          cases hg : Grammar.ofBnf b with
          | error e => exact (hfailed (writes_load_refused hd hb hg)).session_error
          | ok g =>
            have hload : Writes debug (load debug text) _ (.ok (b, g)) := writes_load_ok hd hb hg
            have hperform :=
              session_perform (wellFormed_of_ofBnf hg) task (hfetch.bind_silent hload)
            rw [bind_assoc] at hperform
            exact hperform

end

end Script

theorem Invocation.session_eq [Platform] (i : Invocation) (found : Except ReadError ByteArray) :
    i.session found = Script.shown i.debug (i.run found) :=
  Script.session_ofTask i.task i.debug i.file found

end Command

end Lookahead
