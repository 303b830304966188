import Lookahead.Proofs.Session

/-!
# Debug messages change nothing else

Two runs are compared, one of which is asked for debug messages right behind the subcommand.

## 1. Command lines

The option is a word of its own and takes none of the words behind it.  What has been read only
gets a mark (`Scanned.asVerbose`), and no step of reading looks at that mark; so the rest of the
command line is read as before, and refused as before (`Invocation.ofArgs_debug`).

## 2. Transcripts

A run leaves its debug messages before it reports a fault (`Outcome.IsTracedFirst`).  So where they
are shown, they stand in front of all that is shown otherwise.

## 3. Two runs

Hence the two runs end in the same way and write the same output, and the errors of the one are the
end of the errors of the other (`execute_debug`).
-/

namespace Lookahead.Command

/-! ## 1. Command lines -/

/-- The option stands for itself. -/
theorem Word.classifyAll?_debug (sub : Subcommand) (args : List Text) :
    classifyAll? sub.flags ("-D" :: args) =
      (classifyAll? sub.flags args).map (.short .debug none :: ·) := by
  have hword : classify? sub.flags "-D" = some (.short .debug none) := by cases sub <;> decide
  rw [classifyAll?, if_neg (by decide), hword]
  rfl

namespace Scanned

variable {sub : Subcommand} {r : Scanned}

/-- The same, with debug messages asked for. -/
def asVerbose (r : Scanned) : Scanned := { r with debug := true }

theorem takeRun_asVerbose (run : List Word) :
    r.asVerbose.takeRun sub run = (r.takeRun sub run).asVerbose := by
  unfold takeRun asVerbose
  cases r.file with
  | some file => rfl
  | none =>
    dsimp only
    split
    · cases sub <;> rfl
    · rfl

theorem act_asVerbose (flag : Flag) (value : Option Text) :
    r.asVerbose.act flag value = (r.act flag value).map asVerbose := by
  cases flag <;> rfl

theorem actAll_asVerbose (flags : List Flag) :
    r.asVerbose.actAll flags = (r.actAll flags).map asVerbose := by
  induction flags generalizing r with
  | nil => rfl
  | cons f fs ih =>
    rw [actAll, actAll, act_asVerbose]
    cases r.act f none with
    | error e => rfl
    | ok r' => exact ih

theorem actOn_asVerbose (before : List Flag) (last : Flag) (value : Option Text) :
    r.asVerbose.actOn before last value = (r.actOn before last value).map asVerbose := by
  rw [actOn, actOn, actAll_asVerbose]
  cases r.actAll before with
  | error e => rfl
  | ok r' => exact act_asVerbose last value

/-- **All words.**  No word is read in another way. -/
theorem takeWords_asVerbose (ws : List Word) :
    r.asVerbose.takeWords sub ws = (r.takeWords sub ws).map asVerbose := by
  -- the cases are those of the reader; the first step is taken on both sides, the mark goes through
  -- it, and the rest is the induction hypothesis for what the step has left
  fun_induction takeWords sub r ws with
  | case1 r => rw [takeWords]; rfl
  | case2 r w ws hw ih =>
    rw [takeWords, if_pos hw, takeRun_asVerbose]
    exact ih
  | case3 r ws hw ih =>
    rw [takeWords, if_neg hw, if_pos rfl]
    exact ih
  | case4 r w ws hw hunknown hsplit =>
    rw [takeWords_option hw hunknown, hsplit]
    rfl
  | case5 r w ws hw hunknown before last value left hsplit e hact =>
    simp only [takeWords_option hw hunknown, hsplit, actOn_asVerbose, hact]
    rfl
  | case6 r w ws hw hunknown before last value left hsplit r' hact ih =>
    simp only [takeWords_option hw hunknown, hsplit, actOn_asVerbose, hact]
    exact ih

end Scanned

namespace Invocation

/-- The same, with debug messages asked for. -/
def asVerbose (i : Invocation) : Invocation := { i with debug := true }

theorem finish_asVerbose (sub : Subcommand) (r : Scanned) :
    r.asVerbose.finish sub = (r.finish sub).map asVerbose := by
  unfold Scanned.finish Scanned.asVerbose
  cases r.file with
  | none => rfl
  | some file => cases r.surplus <;> rfl

/-- The words behind the subcommand. -/
theorem ofWords_debug (sub : Subcommand) (args : List Text) :
    ofWords sub ("-D" :: args) = (ofWords sub args).map asVerbose := by
  rw [ofWords, ofWords, Word.classifyAll?_debug]
  cases Word.classifyAll? sub.flags args with
  | none => rfl
  | some ws =>
    have hoption : Scanned.initial.takeWords sub (.short .debug none :: ws) =
        (Scanned.initial.takeWords sub ws).map Scanned.asVerbose := by
      rw [Scanned.takeWords_option (by decide) (by decide)]
      exact Scanned.takeWords_asVerbose ws
    simp only [Option.map_some, hoption]
    cases Scanned.initial.takeWords sub ws with
    | error e => rfl
    | ok r => exact finish_asVerbose sub r

/-- **One command line.**  With the option behind the subcommand, debug messages are asked for, and
nothing else is read in another way. -/
theorem ofArgs_debug {name : Text} {sub : Subcommand} (h : Subcommand.ofName? name = some sub)
    (args : List Text) :
    ofArgs (name :: "-D" :: args) = (ofArgs (name :: args)).map asVerbose := by
  rw [ofArgs_cons h, ofArgs_cons h, ofWords_debug]

end Invocation

/-! ## 2. Transcripts -/

/-- There are no debug messages behind other lines. -/
def Outcome.IsTracedFirst (o : Outcome) : Prop :=
  ∃ traces rest, o.transcript = traced traces ++ rest ∧ ∀ l ∈ rest, l.channel ≠ .debug

theorem channel_of_mem_printed {texts : List Text} {l : Line} (h : l ∈ printed texts) :
    l.channel = .output := by
  obtain ⟨text, -, rfl⟩ := List.mem_map.1 h
  rfl

theorem channel_of_mem_reported {texts : List Text} {l : Line} (h : l ∈ reported texts) :
    l.channel = .error := by
  obtain ⟨text, -, rfl⟩ := List.mem_map.1 h
  rfl

namespace Outcome

variable {o : Outcome}

theorem isTracedFirst_failed (traces : List Text) (r : Except Escape (List Text)) :
    (failed (traced traces) r).IsTracedFirst := by
  cases r with
  | error escape => exact ⟨traces, [], (List.append_nil _).symm, by simp⟩
  | ok report =>
    exact ⟨traces, reported report, rfl, fun l hl => by simp [channel_of_mem_reported hl]⟩

theorem isTracedFirst_printing (traces : List Text) (code : Nat) (texts : List Text) :
    (printing (traced traces) code texts).IsTracedFirst :=
  ⟨traces, printed (written texts), rfl, fun l hl => by simp [channel_of_mem_printed hl]⟩

theorem isTracedFirst_perform (task : Task) (traces : List Text) (b : Bnf) (g : Grammar) :
    (task.perform (traced traces) b g).IsTracedFirst := by
  rw [Task.perform, ← traced_append]
  cases task.answer g with
  | error e => exact isTracedFirst_failed _ _
  | ok answer => exact isTracedFirst_printing _ _ _

/-- The stages of a run leave nothing but debug messages. -/
theorem isTracedFirst_of_continues [Platform] {task : Task} {x : Except Failure Grammar}
    (h : task.Continues x o) : o.IsTracedFirst := by
  cases h with
  | failed traces e => exact isTracedFirst_failed traces _
  | performed traces b g => exact isTracedFirst_perform task traces b g

/-- **One run.**  Output and reports come last. -/
theorem isTracedFirst_run [Platform] (i : Invocation) (found : Except ReadError ByteArray) :
    (i.run found).IsTracedFirst := by
  cases found with
  | error e => exact isTracedFirst_failed [] _
  | ok bytes => exact isTracedFirst_of_continues (i.task.continues_ofFile i.file bytes)

theorem errorsOf_of_forall_ne {t : Transcript} (h : ∀ l ∈ t, l.channel ≠ .debug) (debug : Bool) :
    errorsOf debug t = errorsOf true t := by
  rw [errorsOf, errorsOf]
  congr 1
  refine List.filter_congr fun l hl => ?_
  simp [h l hl]

/-- With debug messages, something comes in front of the errors. -/
theorem IsTracedFirst.exists_errorsOf (h : o.IsTracedFirst) (debug : Bool) :
    ∃ messages, errorsOf true o.transcript = messages ++ errorsOf debug o.transcript := by
  obtain ⟨traces, rest, ht, hrest⟩ := h
  rw [ht, errorsOf_append, errorsOf_append, errorsOf_of_forall_ne hrest debug, errorsOf_traced,
    errorsOf_traced]
  cases debug with
  | true => exact ⟨"", by simp⟩
  | false => exact ⟨showLines (traced traces), by simp [showLines]⟩

end Outcome

/-! ## 3. Two runs -/

/-- A session with debug messages, beside the same one without. -/
theorem Invocation.session_asVerbose [Platform] (i : Invocation)
    (found : Except ReadError ByteArray) :
    (i.asVerbose.session found).ending = (i.session found).ending ∧
      (i.asVerbose.session found).streams.output = (i.session found).streams.output ∧
      ∃ messages, (i.asVerbose.session found).streams.errors =
        messages ++ (i.session found).streams.errors := by
  have hrun : i.asVerbose.run found = i.run found := rfl
  rw [session_eq, session_eq, hrun]
  exact ⟨rfl, rfl, (Outcome.isTracedFirst_run i found).exists_errorsOf i.debug⟩

/-- **Debug messages do not interfere.**  Let a command line begin with a subcommand, in whatever
surroundings, and let the option `-D` be put right behind the subcommand.  If the one command line
cannot be run, then the other cannot either, and it stops in the same way.  Otherwise both sessions
end in the same way, with the same exit code or the same fault that escapes, they have the same
output, and the errors without the option are the end of the errors with it. -/
theorem execute_debug [Platform] {name : Text} {sub : Subcommand}
    (hsub : Subcommand.ofName? name = some sub) (find : Text → Except ReadError ByteArray)
    (args : List Text) :
    (∀ stop, execute find (name :: args) = .error stop →
      execute find (name :: "-D" :: args) = .error stop) ∧
    ∀ s, execute find (name :: args) = .ok s →
      ∃ s', execute find (name :: "-D" :: args) = .ok s' ∧ s'.ending = s.ending ∧
        s'.streams.output = s.streams.output ∧
        ∃ messages, s'.streams.errors = messages ++ s.streams.errors := by
  rw [execute, execute, Invocation.ofArgs_debug hsub]
  cases Invocation.ofArgs (name :: args) with
  | error stop =>
    refine ⟨fun stop h => ?_, fun s h => ?_⟩
    · cases h
      rfl
    · cases h
  | ok i =>
    refine ⟨fun stop h => ?_, fun s h => ?_⟩
    · cases h
    · cases h
      exact ⟨_, rfl, i.session_asVerbose (find i.file)⟩

/-- Behind the separator the option is a symbol, and an unknown one. -/
theorem execute_debug_first :
    letI := Platform.bare
    ∃ s', execute (fun _ => .ok "S : 'a' ;".toUTF8) ["first", "-D", "--", "g.g", "-D"] = .ok s' ∧
      s'.ending = .exited 2 ∧ s'.streams.output = "" ∧
      ∃ messages, s'.streams.errors =
        messages ++ "[ERROR] UnknownSymbol Unknown symbol '-D'\n" := by
  let := Platform.bare
  have hquiet : execute (fun _ => .ok "S : 'a' ;".toUTF8) ["first", "--", "g.g", "-D"] =
      .ok ⟨.exited 2, "", "[ERROR] UnknownSymbol Unknown symbol '-D'\n"⟩ := by decide +kernel
  have hfirst : Subcommand.ofName? "first" = some .first := by decide
  exact (execute_debug hfirst (fun _ => .ok "S : 'a' ;".toUTF8) ["--", "g.g", "-D"]).2 _ hquiet

end Lookahead.Command
