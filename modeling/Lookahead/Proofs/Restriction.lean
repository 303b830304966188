import Lookahead.Proofs.Names
import Lookahead.Proofs.Session
import Mathlib.Data.List.Nodup

/-!
# The tables of one non-terminal

## 1. Entries and their owners

Each entry of an overview is about one non-terminal.  To restrict an overview to a name is to keep
the entries about that name (`Overview.restrictTo`).  What is left of the overview of all
non-terminals is the overview of the one (`Overview.restrictTo_ofNames`).

## 2. Sessions

The session of `sets` on a file that gives a grammar writes an overview, or it reports the first
name that is no non-terminal and writes none.

## 3. Command lines

The option can be given any name, and if it is attached to the option, any text at all
(`Invocation.ofArgs_symbol`).  Two texts are no restriction: the separator is dropped when the
command line is read, and the empty name selects all non-terminals, as if none were given.
-/

namespace Lookahead

/-- A file that is known to give certain non-terminals gives a grammar. -/
theorem Grammar.exists_of_map_nonterminals [Platform] {bytes : ByteArray} {ns : List Name}
    (h : (ofFile bytes).map (·.catalog.nonterminals) = .ok ns) :
    ∃ g, ofFile bytes = .ok g ∧ g.catalog.nonterminals = ns := by
  cases hg : ofFile bytes with
  | error e =>
    rw [hg] at h
    cases h
  | ok g =>
    rw [hg] at h
    exact ⟨g, rfl, Except.ok.inj h⟩

namespace Command

/-! ## 1. Entries and their owners -/

namespace Overview

/-- The entries about one non-terminal. -/
def restrictTo (o : Overview) (n : Name) : Overview where
  nullable := o.nullable.filter (· = n)
  first := o.first.filter (·.1 = n)
  follow := o.follow.filter (·.1 = n)
  director := o.director.filter (·.1.lhs = n)

/-- Entries that are listed owner by owner are selected by selecting their owners. -/
theorem filter_flatMap_of_owner {β : Type} (owner : β → Name) {entries : Name → List β}
    (h : ∀ n, ∀ e ∈ entries n, owner e = n) (n : Name) (ns : List Name) :
    (ns.flatMap entries).filter (owner · = n) = (ns.filter (· = n)).flatMap entries := by
  induction ns with
  | nil => rfl
  | cons m ns ih =>
    rw [List.flatMap_cons, List.filter_append, ih]
    by_cases hm : m = n
    · have hall : (entries m).filter (owner · = n) = entries m :=
        List.filter_eq_self.2 fun e he => by simp [h m e he, hm]
      rw [hall, List.filter_cons_of_pos (by simpa using hm), List.flatMap_cons]
    · have hnone : (entries m).filter (owner · = n) = [] :=
        List.filter_eq_nil_iff.2 fun e he => by simp [h m e he, hm]
      rw [hnone, List.filter_cons_of_neg (by simpa using hm), List.nil_append]

section OneOwner

variable {ns : List Name} {n : Name}

/-- A name that is listed once is all that is left of the names. -/
theorem filter_eq_singleton (hns : ns.Nodup) (hn : n ∈ ns) : ns.filter (· = n) = [n] := by
  rw [List.filter_eq, List.count_eq_one_of_mem hns hn, List.replicate_one]

theorem filter_flatMap_eq {β : Type} (owner : β → Name) {entries : Name → List β}
    (h : ∀ n, ∀ e ∈ entries n, owner e = n) (hns : ns.Nodup) (hn : n ∈ ns) :
    (ns.flatMap entries).filter (owner · = n) = entries n := by
  rw [filter_flatMap_of_owner owner h, filter_eq_singleton hns hn, List.flatMap_singleton]

/-- The overview of some non-terminals, restricted to one of them, is the overview of that one. -/
theorem restrictTo_ofNames (g : Grammar) (hns : ns.Nodup) (hn : n ∈ ns) :
    (ofNames g ns).restrictTo n = ofNames g [n] := by
  have hnullable : (ns.filter (· ∈ g.nullable)).filter (· = n) = [n].filter (· ∈ g.nullable) := by
    rw [List.filter_comm, filter_eq_singleton hns hn]
  have hpairs : ∀ value : Name → NameSet,
      (ns.map fun m => (m, value m)).filter (·.1 = n) = [(n, value n)] := by
    intro value
    rw [List.map_eq_flatMap]
    exact filter_flatMap_eq Prod.fst (by simp) hns hn
  -- a non-terminal owns all of its alternatives, and there may be any number of them
  have hdirector :
      (ns.flatMap fun m => directorRow g.productions g.first g.follow g.nullable m).filter
        (·.1.lhs = n) = directorRow g.productions g.first g.follow g.nullable n := by
    refine filter_flatMap_eq (fun e : Alternative × NameSet => e.1.lhs) (fun m e he => ?_) hns hn
    obtain ⟨a, ha, rfl⟩ := List.mem_map.1 he
    exact (mem_alternativesOf.1 ha).1
  simp only [restrictTo, ofNames, hnullable, hpairs, hdirector]
  simp

end OneOwner

/-- An overview can be written to the end if there are no surrogates in its entries. -/
theorem all_isWritable_lines_iff {o : Overview} : o.lines.all Text.isWritable = true ↔
    (∀ n ∈ o.nullable, n.isWritable = true) ∧
    (∀ e ∈ o.first, e.1.isWritable = true ∧ e.2.render.isWritable = true) ∧
    (∀ e ∈ o.follow, e.1.isWritable = true ∧ e.2.render.isWritable = true) ∧
    ∀ e ∈ o.director, e.1.render.isWritable = true ∧ e.2.render.isWritable = true := by
  have hnullable : (if o.nullable.isEmpty then ("(none)" : Text) else commas o.nullable).isWritable =
      o.nullable.all Text.isWritable := by
    cases o.nullable with
    | nil => rfl
    | cons n ns => exact Text.isWritable_join (Text.isWritable_ofString ", ") (n :: ns)
  simp [lines, hnullable, entryLine, padded, -List.isEmpty_iff]

/-- What is left of an overview can be written if all of it can. -/
theorem all_isWritable_restrictTo {o : Overview} (h : o.lines.all Text.isWritable = true)
    (n : Name) : (o.restrictTo n).lines.all Text.isWritable = true := by
  rw [all_isWritable_lines_iff] at h ⊢
  obtain ⟨hnullable, hfirst, hfollow, hdirector⟩ := h
  exact ⟨fun m hm => hnullable m (List.mem_of_mem_filter hm),
    fun e he => hfirst e (List.mem_of_mem_filter he),
    fun e he => hfollow e (List.mem_of_mem_filter he),
    fun e he => hdirector e (List.mem_of_mem_filter he)⟩

end Overview

/-! ## 2. Sessions -/

/-- The session has written the overview to the end and exits with 0, or it has written it up to the
first line that cannot be written, and that fault escapes. -/
def Session.Shows (s : Session) (o : Overview) : Prop :=
  s.streams.output = showLines (printed (written o.lines)) ∧
    s.ending = if o.lines.all Text.isWritable then .exited 0 else .escaped .unwritable

theorem Session.Shows.all_isWritable {s : Session} {o : Overview} (h : s.Shows o)
    (hexit : s.ending = .exited 0) : o.lines.all Text.isWritable = true := by
  by_contra hnot
  rw [h.2, if_neg hnot] at hexit
  cases hexit

@[simp] theorem outputOf_printed (texts : List Text) :
    outputOf (printed texts) = showLines (printed texts) := by
  simp [outputOf, printed, List.filter_map, Function.comp_def]

theorem showLines_unknownNonterminal (n : Name) :
    showLines (reported (grammarReport (.unknownNonterminal n))) =
      "[ERROR] UnknownSymbol Unknown nonterminal " ++ n.quoted ++ "\n" := by
  have hwords : "[ERROR] " ++ ("UnknownSymbol " ++ ("Unknown nonterminal " ++ n.quoted)) =
      "[ERROR] UnknownSymbol Unknown nonterminal " ++ n.quoted := by
    rw [← String.append_assoc, ← String.append_assoc]
    simp
  simp [showLines, reported, grammarReport, GrammarError.label, GrammarError.message, hwords]

section Sessions

variable [Platform] {bytes : ByteArray} {g : Grammar}

/-- A run on a file that gives a grammar does its task with that grammar. -/
theorem Invocation.exists_run_eq_perform (hg : Grammar.ofFile bytes = .ok g) (i : Invocation) :
    ∃ traces b, i.run (.ok bytes) = i.task.perform (traced traces) b g := by
  have hstages := i.task.continues_ofFile i.file bytes
  rw [hg] at hstages
  rw [run]
  generalize i.task.run i.file (.ok bytes) = o at hstages
  cases hstages with
  | performed traces b g => exact ⟨traces, b, rfl⟩

/-- The tables of declared non-terminals are shown. -/
theorem shows_of_declared (hg : Grammar.ofFile bytes = .ok g) {only : Option Name}
    {ns : List Name} (hselected : Task.selected g only = ns)
    (hns : ∀ n ∈ ns, n ∈ g.catalog.nonterminals) (path : Text) (debug : Bool) :
    (Invocation.session ⟨.sets only, path, debug⟩ (.ok bytes)).Shows (Overview.ofNames g ns) := by
  have hdeclared : ns.find? (! g.catalog.isNonterminal ·) = none := by
    simpa [Catalog.isNonterminal_iff] using hns
  have hanswer : (Task.sets only).answer g = .ok (0, (Overview.ofNames g ns).lines) := by
    rw [Task.answer, hselected, hdeclared]
  obtain ⟨traces, b, hrun⟩ := Invocation.exists_run_eq_perform hg ⟨.sets only, path, debug⟩
  rw [Invocation.session_eq, hrun, Task.perform, hanswer]
  constructor
  · simp [Script.shown, Outcome.printing, outputOf_append]
  · rfl

/-- A name that is no non-terminal is reported. -/
theorem session_sets_of_undeclared (hg : Grammar.ofFile bytes = .ok g) {only : Option Name}
    {n : Name} (hselected : Task.selected g only = [n]) (hn : n ∉ g.catalog.nonterminals)
    (path : Text) (debug : Bool) :
    ∃ messages, Invocation.session ⟨.sets only, path, debug⟩ (.ok bytes) = ⟨.exited 2, ⟨"",
      messages ++ ("[ERROR] UnknownSymbol Unknown nonterminal " ++ n.quoted ++ "\n")⟩⟩ := by
  have hundeclared : [n].find? (! g.catalog.isNonterminal ·) = some n := by
    simpa [Catalog.isNonterminal_iff] using hn
  have hanswer : (Task.sets only).answer g = .error (.unknownNonterminal n) := by
    rw [Task.answer, hselected, hundeclared]
  obtain ⟨traces, b, hrun⟩ := Invocation.exists_run_eq_perform hg ⟨.sets only, path, debug⟩
  refine ⟨errorsOf debug (traced traces ++ traced (Task.messages b g (.sets only))), ?_⟩
  rw [Invocation.session_eq, hrun, Task.perform, hanswer]
  simp [Script.shown, Outcome.failed, outputOf_append, errorsOf_append,
    showLines_unknownNonterminal, String.append_assoc]

end Sessions

/-! ## 3. Command lines -/

section CommandLines

/-- What is attached to the option is its value, whatever it is. -/
theorem classify?_symbol (x : Text) :
    Word.classify? Subcommand.sets.flags ("--symbol=" ++ x) = some (.long .symbol (some x)) := by
  rfl

/-- Any text can be given to the option, and it is what the option selects by, unless it is spelled
like the separator. -/
theorem Invocation.ofArgs_symbol (x file : Text) :
    ofArgs ["sets", "--symbol=" ++ x, "--", file] =
      .ok ⟨.sets ((some x).filter (· ≠ "--")), file, false⟩ := by
  have hne : "--symbol=" ++ x ≠ "--" := by
    intro h
    have hlength := congrArg Text.length h
    rw [Text.length_append, Text.length_ofString, Text.length_ofString] at hlength
    have hoption : "--symbol=".length = 9 := rfl
    have hseparator : "--".length = 2 := rfl
    omega
  have hwords : Word.classifyAll? Subcommand.sets.flags ["--symbol=" ++ x, "--", file] =
      some [.long .symbol (some x), .separator, .plain file] := by
    rw [Word.classifyAll?, if_neg hne, classify?_symbol]
    rfl
  have hfile : ∀ only : Option Name, (⟨none, [], only, false, false⟩ : Scanned).takeWords .sets
      [.separator, .plain file] = .ok ⟨some file, [], only, false, false⟩ := by
    intro only
    rw [Scanned.takeWords]
    show Scanned.takeWords .sets ⟨some file, [], only, false, false⟩ [] = _
    rw [Scanned.takeWords]
  -- the first word is the option, with its value; the separator and the file are one run
  have hpositional : ¬ (Word.long .symbol (some x)).isPositional = true := Bool.false_ne_true
  rw [ofArgs_cons rfl, ofWords, hwords]
  dsimp only
  rw [Scanned.takeWords_option hpositional (by simp)]
  exact congrArg (Except.bind · (Scanned.finish .sets)) (hfile ((some x).filter (· ≠ "--")))

variable {bytes : ByteArray} {g : Grammar} {x : Text}

/-- Two texts select all non-terminals. -/
theorem selected_of_ignored (hx : x = "" ∨ x = "--") :
    Task.selected g ((some x).filter (· ≠ "--")) = g.catalog.nonterminals := by
  rcases hx with rfl | rfl <;> rfl

/-- Any other selects by itself. -/
theorem selected_of_ne (hempty : x ≠ "") (hseparator : x ≠ "--") :
    Task.selected g ((some x).filter (· ≠ "--")) = [x] := by
  rw [Option.filter_some_pos (by simpa using hseparator), Task.selected, if_neg]
  rwa [Text.isEmpty_iff]

/-- Neither of the two is a non-terminal of a file. -/
theorem ne_of_mem_nonterminals [Platform] (hg : Grammar.ofFile bytes = .ok g)
    (hx : x ∈ g.catalog.nonterminals) : x ≠ "" ∧ x ≠ "--" := by
  obtain ⟨c, cs, rfl, hstart, -⟩ := Grammar.isIdentifier_of_ofFile hg x hx
  constructor
  · intro h
    cases Text.ofChars_injective h
  · intro h
    obtain rfl : c = '-' := List.head_eq_of_cons_eq (Text.ofChars_injective h)
    have hdash : Text.isIdentStart '-' = false := by decide +kernel
    rw [hdash] at hstart
    cases hstart

/-- **The option `-s` restricts the tables.**  Let a command line of `sets` give the text `x` to the
option, let another one name the same file without the option, and let the file give a grammar.
Then the other session shows the overview of all non-terminals.

If `x` is a non-terminal, then the session shows that overview restricted to `x`, and it exits with
0 if the other one does.  If it is not, then the session exits with 2, writes no output, and ends
with the report that `x` is unknown; except that the empty text and the separator, though they are
never non-terminals, do not restrict the tables at all. -/
theorem execute_sets_symbol [Platform] (find : Text → Except ReadError ByteArray)
    {args all : List Text} {file : Text} {debug debug' : Bool}
    (hargs : Invocation.ofArgs args = .ok ⟨.sets ((some x).filter (· ≠ "--")), file, debug⟩)
    (hall : Invocation.ofArgs all = .ok ⟨.sets none, file, debug'⟩)
    (hfind : find file = .ok bytes) (hg : Grammar.ofFile bytes = .ok g) :
    ∃ s t, execute find args = .ok s ∧ execute find all = .ok t ∧
      t.Shows (Overview.ofNames g g.catalog.nonterminals) ∧
      (x ∈ g.catalog.nonterminals →
        s.Shows ((Overview.ofNames g g.catalog.nonterminals).restrictTo x) ∧
        (t.ending = .exited 0 → s.ending = .exited 0)) ∧
      (x ∉ g.catalog.nonterminals → x ≠ "" → x ≠ "--" →
        s.ending = .exited 2 ∧ s.streams.output = "" ∧
          ∃ messages, s.streams.errors =
            messages ++ ("[ERROR] UnknownSymbol Unknown nonterminal " ++ x.quoted ++ "\n")) ∧
      (x = "" ∨ x = "--" → x ∉ g.catalog.nonterminals ∧
        s.ending = t.ending ∧ s.streams.output = t.streams.output) := by
  have hsession : execute find args = .ok
      (Invocation.session ⟨.sets ((some x).filter (· ≠ "--")), file, debug⟩ (.ok bytes)) := by
    rw [execute, hargs, ← hfind]
    rfl
  have hsession' : execute find all = .ok
      (Invocation.session ⟨.sets none, file, debug'⟩ (.ok bytes)) := by
    rw [execute, hall, ← hfind]
    rfl
  have hnone : Task.selected g none = g.catalog.nonterminals := rfl
  have hshown := shows_of_declared hg hnone (fun _ hn => hn) file debug'
  refine ⟨_, _, hsession, hsession', hshown, fun hx => ?declared,
    fun hx hempty hseparator => ?undeclared, fun hx => ?ignored⟩
  case declared =>
    obtain ⟨hempty, hseparator⟩ := ne_of_mem_nonterminals hg hx
    have hone := shows_of_declared hg (selected_of_ne hempty hseparator) (by simpa using hx) file
      debug
    have hnodup := (Grammar.wellFormed_of_ofFile hg).valid.nodup_nonterminals
    rw [← Overview.restrictTo_ofNames g hnodup hx] at hone
    refine ⟨hone, fun hexit => ?_⟩
    rw [hone.2, Overview.all_isWritable_restrictTo (hshown.all_isWritable hexit), if_pos rfl]
  case undeclared =>
    obtain ⟨messages, hreported⟩ :=
      session_sets_of_undeclared hg (selected_of_ne hempty hseparator) hx file debug
    rw [hreported]
    exact ⟨rfl, rfl, messages, rfl⟩
  case ignored =>
    have hsame := shows_of_declared hg (selected_of_ignored hx) (fun _ hn => hn) file debug
    refine ⟨fun hmem => ?_, hsame.2.trans hshown.2.symm, hsame.1.trans hshown.1.symm⟩
    obtain ⟨hempty, hseparator⟩ := ne_of_mem_nonterminals hg hmem
    exact hx.elim hempty hseparator

/-- The tables of one of two non-terminals. -/
theorem execute_sets_second :
    letI := Platform.bare
    ∃ g s, Grammar.ofFile "S : A 'a' ; A : ;".toUTF8 = .ok g ∧
      execute (fun _ => .ok "S : A 'a' ; A : ;".toUTF8)
        ["sets", "--symbol=" ++ ("A" : Text), "--", "g.g"] = .ok s ∧
      s.Shows ((Overview.ofNames g g.catalog.nonterminals).restrictTo "A") := by
  let := Platform.bare
  have hnames : (Grammar.ofFile "S : A 'a' ; A : ;".toUTF8).map (·.catalog.nonterminals) =
      .ok ["S", "A"] := by decide +kernel
  obtain ⟨g, hg, hnonterminals⟩ := Grammar.exists_of_map_nonterminals hnames
  have hall : Invocation.ofArgs ["sets", "g.g"] = .ok ⟨.sets none, "g.g", false⟩ := by
    decide +kernel
  obtain ⟨s, t, hs, -, -, hdeclared, -⟩ := execute_sets_symbol
    (fun _ => .ok "S : A 'a' ; A : ;".toUTF8) (Invocation.ofArgs_symbol "A" "g.g") hall rfl hg
  exact ⟨g, s, hg, hs, (hdeclared (by simp [hnonterminals])).1⟩

/-- With the empty name, the tables are shown of a non-terminal that has another name. -/
theorem execute_sets_emptyName :
    letI := Platform.bare
    ∃ g s, Grammar.ofFile "S : 'a' ;".toUTF8 = .ok g ∧ ("" : Name) ∉ g.catalog.nonterminals ∧
      execute (fun _ => .ok "S : 'a' ;".toUTF8) ["sets", "g.g", "-s", ""] = .ok s ∧
      s.ending = .exited 0 ∧ s.streams.output ≠ "" := by
  let := Platform.bare
  have hnames : (Grammar.ofFile "S : 'a' ;".toUTF8).map (·.catalog.nonterminals) =
      .ok ["S"] := by decide +kernel
  obtain ⟨g, hg, hnonterminals⟩ := Grammar.exists_of_map_nonterminals hnames
  have hsession : execute (fun _ => .ok "S : 'a' ;".toUTF8) ["sets", "g.g", "-s", ""] =
      .ok ⟨.exited 0, ⟨"[NULLABLE]\n(none)\n\n[FIRST(nonterminals)]\nS : \x7ba\x7d\n\n" ++
        "[FOLLOW(nonterminals)]\nS : \x7b$\x7d\n\n" ++
        "[DIRECTOR(alternatives)]\n  S#0 -> a : \x7ba\x7d\n", ""⟩⟩ := by decide +kernel
  exact ⟨g, _, hg, by simp [hnonterminals], hsession, rfl, by simp⟩

end CommandLines

end Command

end Lookahead
