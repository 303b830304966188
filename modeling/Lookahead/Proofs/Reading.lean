import Lookahead.Extended.Bnf
import Lookahead.Extended.Nesting
import Lookahead.Proofs.Fresh

/-!
# Reading names and lowering productions

`Expr.ofNames` reads an extended right-hand side from a list of names, and `lowerProductions` lowers
what it reads.

## 1. Steps of the reader

There are five things that the reader can do with the next name, one for each kind of mark and one
for a name that is no mark; and at a closing bracket it depends on the innermost open one.  A
`ReaderStep` says what becomes of the stack and of the innermost level in the four cases where the
reader goes on, and what every step preserves holds at the end of a run
(`Expr.exists_level_of_readNames`).

## 2. Balanced lists

A balanced list is read inside any brackets, and leaves them as they were; all it does is to add
atoms to the innermost level, and their leaves are the names that are no marks, in their order
(`Balanced.exists_readNames`).  If, on the other hand, the reader comes to an end, then what it has
read is balanced: in the middle, what lies behind it leaves open just the brackets on its stack
(`balanced_of_readNames`).  So the reader accepts exactly the balanced lists (`exists_ofNames_iff`).

## 3. Lowering productions

Productions can be lowered exactly if every right-hand side with a mark is balanced
(`exists_lowerProductionsFrom_iff`), and then they become productions that are made of their names
and of invented ones (`exists_lowerProductionsFrom`).  The latter holds whether or not a right-hand
side uses marks, so nobody has to ask for it later.
-/

namespace Lookahead

/-- The leaves that a list of names is read into: each name that is no mark, as a symbol. -/
def plainLeaves (names : List Name) : List Leaf := (names.filter (! isMark ·)).map .name

@[simp] theorem plainLeaves_nil : plainLeaves [] = [] := rfl

@[simp] theorem plainLeaves_append (ns ms : List Name) :
    plainLeaves (ns ++ ms) = plainLeaves ns ++ plainLeaves ms := by
  simp [plainLeaves]

theorem isMark_name (m : Mark) : isMark m.name = true := isMark_iff.2 ⟨m, rfl⟩

theorem plainLeaves_cons_mark (m : Mark) (ns : List Name) :
    plainLeaves (m.name :: ns) = plainLeaves ns := by
  simp [plainLeaves, isMark_name]

theorem plainLeaves_cons {n : Name} (hn : isMark n = false) (ns : List Name) :
    plainLeaves (n :: ns) = .name n :: plainLeaves ns := by
  simp [plainLeaves, hn]

theorem mem_namesOf_plainLeaves {n : Name} {ns : List Name} :
    n ∈ namesOf (plainLeaves ns) ↔ n ∈ ns ∧ isMark n = false := by
  simp [namesOf, plainLeaves, Lowered.ofLeaf]

theorem Mark.ofName?_eq_none_iff {n : Name} : Mark.ofName? n = none ↔ isMark n = false := by
  rw [isMark, ← Option.not_isSome_iff_eq_none, Bool.not_eq_true]

theorem isBracket_iff {n : Name} : IsBracket n ↔
    ∃ b, Mark.ofName? n = some (.opening b) ∨ Mark.ofName? n = some (.closing b) := by
  simp only [IsBracket, Mark.ofName?_eq_some_iff]

theorem not_isBracket_of_isMark_eq_false {n : Name} (hn : isMark n = false) : ¬ IsBracket n := by
  simp [isBracket_iff, Mark.ofName?_eq_none_iff.2 hn]

theorem not_isBracket_bar : ¬ IsBracket Mark.bar.name := by
  simp [isBracket_iff, Mark.ofName?_name]

namespace Expr

/-! ## 1. Steps of the reader -/

theorem sequenceLeaves_append (as bs : List Atom) :
    sequenceLeaves (as ++ bs) = sequenceLeaves as ++ sequenceLeaves bs := by
  induction as with
  | nil => rfl
  | cons a as ih =>
    rw [List.cons_append, sequenceLeaves, sequenceLeaves, ih, List.append_assoc]

theorem leaves_append (e e' : List (List Atom)) : leaves (e ++ e') = leaves e ++ leaves e' := by
  induction e with
  | nil => rfl
  | cons alternative rest ih => rw [List.cons_append, leaves, leaves, ih, List.append_assoc]

theorem leaves_alternatives (l : Level) :
    leaves l.alternatives = leaves l.finished ++ sequenceLeaves l.current := by
  rw [Level.alternatives, leaves_append, leaves, leaves, List.append_nil]

theorem leaves_push (l : Level) (a : Atom) :
    leaves (l.push a).alternatives = leaves l.alternatives ++ atomLeaves a := by
  rw [leaves_alternatives, leaves_alternatives, Level.push, sequenceLeaves_append, sequenceLeaves,
    sequenceLeaves, List.append_nil, List.append_assoc]

theorem leaves_bar (l : Level) : leaves l.bar.alternatives = leaves l.alternatives := by
  rw [leaves_alternatives, Level.bar, sequenceLeaves, List.append_nil]

variable {lhs : Option Name} {outer : List (Bracket × Level)} {level : Level} {ns : List Name}

theorem readNames_name {n : Name} (hn : isMark n = false) :
    readNames lhs outer level (n :: ns) = readNames lhs outer (level.push (.ofName n)) ns := by
  rw [readNames, Mark.ofName?_eq_none_iff.2 hn]

theorem readNames_bar :
    readNames lhs outer level (Mark.bar.name :: ns) = readNames lhs outer level.bar ns := by
  rw [readNames, Mark.ofName?_name]

theorem readNames_opening (b : Bracket) :
    readNames lhs outer level ((Mark.opening b).name :: ns) =
      readNames lhs ((b, level) :: outer) .empty ns := by
  rw [readNames, Mark.ofName?_name]

theorem readNames_closing (b : Bracket) (around : Level) :
    readNames lhs ((b, around) :: outer) level ((Mark.closing b).name :: ns) =
      readNames lhs outer (around.push (.group level.alternatives b.suffix none)) ns := by
  rw [readNames, Mark.ofName?_name]
  simp only [if_true]

theorem readNames_closing_of_ne {b : Bracket} (hb : (outer.map (·.1)).head? ≠ some b) :
    readNames lhs outer level ((Mark.closing b).name :: ns) =
      .error (.unbalanced (Mark.closing b).name lhs) := by
  rw [readNames, Mark.ofName?_name]
  cases outer with
  | nil => rfl
  | cons open' outer =>
    have hne : b ≠ open'.1 := fun h => hb (congrArg some h.symm)
    simp only [if_neg hne]

/-- What the reader does with a name that it accepts: the open brackets and the innermost level, as
they are before it and after it. -/
inductive ReaderStep : List (Bracket × Level) → Level → Name → List (Bracket × Level) → Level → Prop
  | name {outer : List (Bracket × Level)} {level : Level} {n : Name} (hn : isMark n = false) :
      ReaderStep outer level n outer (level.push (.ofName n))
  | bar {outer : List (Bracket × Level)} {level : Level} :
      ReaderStep outer level Mark.bar.name outer level.bar
  | opening {outer : List (Bracket × Level)} {level : Level} (b : Bracket) :
      ReaderStep outer level (Mark.opening b).name ((b, level) :: outer) .empty
  | closing {outer : List (Bracket × Level)} {level : Level} (b : Bracket) (around : Level) :
      ReaderStep ((b, around) :: outer) level (Mark.closing b).name outer
        (around.push (.group level.alternatives b.suffix none))

/-- If the reader comes to an end, it has made a step with the next name. -/
theorem exists_step_of_readNames {n : Name} {e : Expr}
    (h : readNames lhs outer level (n :: ns) = .ok e) :
    ∃ outer' level', ReaderStep outer level n outer' level' ∧
      readNames lhs outer' level' ns = .ok e := by
  cases hm : Mark.ofName? n with
  | none =>
    have hn := Mark.ofName?_eq_none_iff.1 hm
    rw [readNames_name hn] at h
    exact ⟨_, _, .name hn, h⟩
  | some m =>
    obtain rfl := Mark.ofName?_eq_some_iff.1 hm
    cases m with
    | bar =>
      rw [readNames_bar] at h
      exact ⟨_, _, .bar, h⟩
    | opening b =>
      rw [readNames_opening] at h
      exact ⟨_, _, .opening b, h⟩
    | closing b =>
      by_cases hb : (outer.map (·.1)).head? = some b
      · cases outer with
        | nil => cases hb
        | cons open' outer =>
          obtain ⟨b', around⟩ := open'
          obtain rfl : b' = b := Option.some.inj hb
          rw [readNames_closing] at h
          exact ⟨_, _, .closing b' around, h⟩
      · rw [readNames_closing_of_ne hb] at h
        cases h

/-- What every step preserves holds at the end of a run, of all names that lie behind, and nothing is
open there. -/
theorem exists_level_of_readNames {I : List (Bracket × Level) → Level → List Name → Prop}
    (hstep : ∀ {outer level n outer' level' before}, ReaderStep outer level n outer' level' →
      I outer level before → I outer' level' (before ++ [n]))
    (before : List Name) {e : Expr} (h : readNames lhs outer level ns = .ok e)
    (hI : I outer level before) :
    ∃ level' : Level, level'.alternatives = e ∧ I [] level' (before ++ ns) := by
  induction ns generalizing outer level before with
  | nil =>
    cases outer with
    | nil => exact ⟨level, Except.ok.inj h, by rwa [List.append_nil]⟩
    | cons _ _ => cases h
  | cons n ns ih =>
    obtain ⟨outer', level', hs, h'⟩ := exists_step_of_readNames h
    rw [List.append_cons]
    exact ih (before ++ [n]) h' (hstep hs hI)

end Expr

/-! ## 2. Balanced lists -/

/-- A balanced list is read inside any brackets. -/
theorem Balanced.exists_readNames {ns : List Name} (h : Balanced ns) (level : Level) :
    ∃ level' : Level,
      (∀ lhs outer rest, Expr.readNames lhs outer level (ns ++ rest) =
        Expr.readNames lhs outer level' rest) ∧
      Expr.leaves level'.alternatives = Expr.leaves level.alternatives ++ plainLeaves ns := by
  induction h generalizing level with
  | nil => exact ⟨level, fun _ _ _ => rfl, (List.append_nil _).symm⟩
  | @cons n ns hn h ih =>
    cases hm : Mark.ofName? n with
    | none =>
      have hplain := Mark.ofName?_eq_none_iff.1 hm
      obtain ⟨level', hread, hleaves⟩ := ih (level.push (.ofName n))
      refine ⟨level', fun lhs outer rest => ?_, ?_⟩
      · rw [List.cons_append, Expr.readNames_name hplain, hread]
      · rw [hleaves, Expr.leaves_push, plainLeaves_cons hplain, List.append_assoc]
        rfl
    | some m =>
      -- a mark that is no bracket is the bar
      obtain rfl : m = .bar := by
        cases m with
        | bar => rfl
        | opening b => exact absurd (isBracket_iff.2 ⟨b, Or.inl hm⟩) hn
        | closing b => exact absurd (isBracket_iff.2 ⟨b, Or.inr hm⟩) hn
      obtain rfl := Mark.ofName?_eq_some_iff.1 hm
      obtain ⟨level', hread, hleaves⟩ := ih level.bar
      refine ⟨level', fun lhs outer rest => ?_, ?_⟩
      · rw [List.cons_append, Expr.readNames_bar, hread]
      · rw [hleaves, Expr.leaves_bar, plainLeaves_cons_mark]
  | group b h h' ih ih' =>
    obtain ⟨inner, hinner, hleaves⟩ := ih .empty
    obtain ⟨level', hread, hleaves'⟩ := ih' (level.push (.group inner.alternatives b.suffix none))
    refine ⟨level', fun lhs outer rest => ?_, ?_⟩
    · rw [List.cons_append, Expr.readNames_opening, List.append_assoc, hinner, List.cons_append,
        Expr.readNames_closing, hread]
    · rw [hleaves', Expr.leaves_push, Expr.atomLeaves, hleaves, plainLeaves_cons_mark,
        plainLeaves_append, plainLeaves_cons_mark, List.append_assoc]
      rfl

/-- A step leaves open what is on the stack after it. -/
theorem Expr.ReaderStep.leavesOpen {outer outer' : List (Bracket × Level)} {level level' : Level}
    {n : Name} (hs : ReaderStep outer level n outer' level') {before : List Name}
    (h : LeavesOpen (outer.map (·.1)) before) :
    LeavesOpen (outer'.map (·.1)) (before ++ [n]) := by
  cases hs with
  | name hn => exact h.append (.cons (not_isBracket_of_isMark_eq_false hn) .nil)
  | bar => exact h.append (.cons not_isBracket_bar .nil)
  | opening b => exact h.opening b
  | closing b around => exact h.closing

/-- What the reader accepts, begun in the middle, completes what lies behind it to a balanced list.
-/
theorem balanced_of_readNames {lhs : Option Name} {outer : List (Bracket × Level)} {level : Level}
    {before ns : List Name} {e : Expr} (h : LeavesOpen (outer.map (·.1)) before)
    (he : Expr.readNames lhs outer level ns = .ok e) : Balanced (before ++ ns) := by
  obtain ⟨level', -, hopen⟩ := Expr.exists_level_of_readNames
    (I := fun outer _ before => LeavesOpen (outer.map (·.1)) before)
    (fun hs hopen => hs.leavesOpen hopen) before he h
  cases hopen with
  | nil hbalanced => exact hbalanced

/-- A balanced list is read into an expression that has at least one alternative and the names that
are no marks in its leaves. -/
theorem Balanced.exists_ofNames {ns : List Name} (h : Balanced ns) :
    ∃ e, (∀ lhs, Expr.ofNames ns lhs = .ok e) ∧ e ≠ [] ∧ Expr.leaves e = plainLeaves ns := by
  obtain ⟨level, hread, hleaves⟩ := h.exists_readNames .empty
  refine ⟨level.alternatives, fun lhs => ?_, by simp [Level.alternatives], hleaves⟩
  have hend := hread lhs [] []
  rwa [List.append_nil] at hend

/-- Exactly the balanced lists can be read. -/
theorem exists_ofNames_iff {ns : List Name} (lhs : Option Name) :
    (∃ e, Expr.ofNames ns lhs = .ok e) ↔ Balanced ns := by
  constructor
  · rintro ⟨e, he⟩
    have hopen : LeavesOpen (([] : List (Bracket × Level)).map (·.1)) [] := .nil .nil
    exact balanced_of_readNames hopen he
  · intro h
    obtain ⟨e, he, -⟩ := h.exists_ofNames
    exact ⟨e, he lhs⟩

/-! ## 3. Lowering productions -/

theorem mem_ownFirst {lhs : Name} {ps : List Production} {p : Production} :
    p ∈ ownFirst lhs ps ↔ p ∈ ps := by
  by_cases hp : p.lhs = lhs <;> simp [ownFirst, hp]

/-- A production without marks is made of its own names. -/
theorem Lowered.Spells.of_production (s : Supply) {p : Production} (h : hasMarks p.rhs = false) :
    Spells [p.lhs] (plainLeaves p.rhs) s ⟨[], [p], [], []⟩ s := by
  have hplain : ∀ n, n ∈ namesOf (plainLeaves p.rhs) ↔ n ∈ p.rhs := by
    intro n
    rw [mem_namesOf_plainLeaves, and_iff_left_iff_imp]
    rw [hasMarks, List.any_eq_false] at h
    exact fun hn => by simpa using h n hn
  refine ⟨.refl s, by simp, by simp, ?_, by simp, ?_, by simp [plainLeaves, Leaf.literal?]⟩
  · intro q hq n hn
    rw [List.mem_singleton.1 hq] at hn
    exact Or.inl ((hplain n).2 hn)
  · exact fun n hn => Or.inr ⟨p, List.mem_singleton.2 rfl, (hplain n).1 hn⟩

/-- The productions of one left-hand side, moved to the front, are made of the same leaves. -/
theorem Lowered.Spells.ownFirst {own : List Name} {ls : List Leaf} {s s' : Supply} {x : Lowered}
    {lhs : Name} (h : Spells own ls s x s') (ho : ∀ n, n ∈ own ↔ n = lhs) (hx : x.names = []) :
    Spells [lhs] ls s ⟨[], Lookahead.ownFirst lhs x.productions, x.fresh, x.literals⟩ s' where
  toInvents := h.toInvents
  names_mem _ hn := absurd hn List.not_mem_nil
  lhs_mem p hp := by
    rw [List.mem_singleton, ← ho]
    exact h.lhs_mem p (mem_ownFirst.1 hp)
  rhs_mem p hp := h.rhs_mem p (mem_ownFirst.1 hp)
  exists_lhs n hn := by
    obtain ⟨p, hp, hl⟩ := h.exists_lhs n ((ho n).2 (List.mem_singleton.1 hn))
    exact ⟨p, mem_ownFirst.2 hp, hl⟩
  exists_of_leaf n hn := by
    obtain ⟨p, hp, hn⟩ := h.exists_rhs hx hn
    exact Or.inr ⟨p, mem_ownFirst.2 hp, hn⟩
  literals_eq := h.literals_eq

/-- Leaving out productions of other names does not change what belongs to a name. -/
theorem rhssOf_filter {f : Production → Bool} {n : Name}
    (hf : ∀ p : Production, p.lhs = n → f p = true) (ps : List Production) :
    rhssOf (ps.filter f) n = rhssOf ps n := by
  rw [rhssOf, rhssOf, List.filter_filter]
  congr 1
  refine List.filter_congr fun p _ => ?_
  by_cases hp : p.lhs = n
  · simp [hp, hf p hp]
  · simp [hp]

/-- Neither does moving productions of one name to the front. -/
@[simp] theorem rhssOf_ownFirst (lhs : Name) (ps : List Production) (n : Name) :
    rhssOf (ownFirst lhs ps) n = rhssOf ps n := by
  rw [ownFirst, rhssOf_append]
  by_cases hn : n = lhs
  · have hother : rhssOf (ps.filter (·.lhs ≠ lhs)) n = [] :=
      rhssOf_eq_nil fun p hp => by simpa [hn] using (List.mem_filter.1 hp).2
    rw [hother, List.append_nil, rhssOf_filter (by simp [hn])]
  · have hown : rhssOf (ps.filter (·.lhs = lhs)) n = [] := rhssOf_eq_nil fun p hp => by
      have hl : p.lhs = lhs := by simpa using (List.mem_filter.1 hp).2
      exact fun h => hn (h.symm.trans hl)
    rw [hown, List.nil_append, rhssOf_filter]
    rintro p rfl
    simpa using hn

theorem lowerProduction_of_ofNames (s : Supply) {p : Production} {e : Expr}
    (hm : hasMarks p.rhs = true) (he : Expr.ofNames p.rhs (some p.lhs) = .ok e) :
    lowerProduction s p = .ok ((ownFirst p.lhs (Expr.lowerInto p.lhs s e).1.productions,
      (Expr.lowerInto p.lhs s e).1.fresh), (Expr.lowerInto p.lhs s e).2) := by
  rw [lowerProduction, hm, he]
  rfl

/-- What a production is lowered to is made of its names. -/
theorem exists_lowerProduction (s : Supply) {p : Production}
    (h : hasMarks p.rhs = true → Balanced p.rhs) :
    ∃ block fresh s', lowerProduction s p = .ok ((block, fresh), s') ∧
      Lowered.Spells [p.lhs] (plainLeaves p.rhs) s ⟨[], block, fresh, []⟩ s' := by
  cases hm : hasMarks p.rhs with
  | false =>
    refine ⟨[p], [], s, ?_, .of_production s hm⟩
    rw [lowerProduction, hm]
    rfl
  | true =>
    obtain ⟨e, he, hne, hleaves⟩ := (h hm).exists_ofNames
    have hx := Expr.spells_lowerInto p.lhs s e
    have hown : ∀ n, (n ∈ e.map fun _ => p.lhs) ↔ n = p.lhs := by
      intro n
      obtain ⟨alternative, ha⟩ := List.exists_mem_of_ne_nil e hne
      simp only [List.mem_map]
      exact ⟨fun ⟨_, _, hn⟩ => hn.symm, fun hn => ⟨alternative, ha, hn.symm⟩⟩
    have hblock := hx.ownFirst hown (Expr.names_lowerInto ..)
    have hliterals : (Expr.lowerInto p.lhs s e).1.literals = [] := by
      rw [hx.literals_eq, hleaves]
      simp [plainLeaves, Leaf.literal?]
    rw [hliterals, hleaves] at hblock
    exact ⟨_, _, _, lowerProduction_of_ofNames s hm (he _), hblock⟩

/-- What productions are lowered to is made of their names. -/
theorem exists_lowerProductionsFrom (s : Supply) {ps : List Production}
    (h : ∀ p ∈ ps, hasMarks p.rhs = true → Balanced p.rhs) :
    ∃ lowered fresh s', lowerProductionsFrom s ps = .ok (lowered, fresh) ∧
      Lowered.Spells (ps.map (·.lhs)) (ps.flatMap fun p => plainLeaves p.rhs) s
        ⟨[], lowered, fresh, []⟩ s' := by
  induction ps generalizing s with
  | nil => exact ⟨[], [], s, rfl, .nil s⟩
  | cons p ps ih =>
    rw [List.forall_mem_cons] at h
    obtain ⟨block, fresh, s', hp, hblock⟩ := exists_lowerProduction s h.1
    obtain ⟨blocks, more, s'', hps, hblocks⟩ := ih s' h.2
    refine ⟨block ++ blocks, fresh ++ more, s'', ?_, hblock.append hblocks⟩
    rw [lowerProductionsFrom, hp]
    simp only [hps]
    rfl

theorem balanced_of_lowerProduction {s : Supply} {p : Production}
    {r : (List Production × List Name) × Supply} (h : lowerProduction s p = .ok r)
    (hm : hasMarks p.rhs = true) : Balanced p.rhs := by
  refine (exists_ofNames_iff (some p.lhs)).1 ?_
  cases he : Expr.ofNames p.rhs (some p.lhs) with
  | error e =>
    rw [lowerProduction, hm, he] at h
    cases h
  | ok e => exact ⟨e, rfl⟩

/-- Productions can be lowered exactly if those with marks are balanced. -/
theorem exists_lowerProductionsFrom_iff {s : Supply} {ps : List Production} :
    (∃ r, lowerProductionsFrom s ps = .ok r) ↔
      ∀ p ∈ ps, hasMarks p.rhs = true → Balanced p.rhs := by
  constructor
  · rintro ⟨r, hr⟩
    induction ps generalizing s r with
    | nil => exact fun p hp => absurd hp List.not_mem_nil
    | cons p ps ih =>
      rw [lowerProductionsFrom] at hr
      rw [List.forall_mem_cons]
      cases hp : lowerProduction s p with
      | error e =>
        rw [hp] at hr
        cases hr
      | ok b =>
        refine ⟨balanced_of_lowerProduction hp, ?_⟩
        cases hps : lowerProductionsFrom b.2 ps with
        | error e =>
          simp only [hp, hps] at hr
          cases hr
        | ok r' => exact ih r' hps
  · intro h
    obtain ⟨lowered, fresh, _, hl, -⟩ := exists_lowerProductionsFrom s h
    exact ⟨_, hl⟩

end Lookahead
