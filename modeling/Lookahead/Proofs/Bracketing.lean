import Lookahead.Proofs.Reading
import Mathlib.Data.List.Induction

/-!
# The reader and the brackets

`Expr.ofNames` reads a list of names, `Expr.toNames` writes an expression as one.

## 1. Refusal

A list leaves some brackets open, or has a mismatch (`exists_leavesOpen_or_mismatches`).  The reader
keeps one level for each bracket that is left open (`LeavesOpen.exists_readNames`).  So a list that
leaves brackets open is refused with the closing bracket that the innermost one lacks, and a list
with a mismatch is refused with the first closing bracket that does not match.

## 2. What has been read

While it reads, the stack and the innermost level together hold all names that lie behind
(`Expr.namesRead`), and every step adds one name to them.  At the end nothing is open, and the
expression is written as the names that it was read from (`Expr.toNames_of_ofNames`).

## 3. Writing

Not every expression comes from names: there is no way to write a literal, a suffix of a single
name, or a group that is read at least once.  What is read has none of these
(`Expr.isSpelled_of_ofNames`), and for an expression that has none of them, reading undoes writing
(`Expr.IsSpelled.ofNames_toNames`).

## 4. Reading and writing

Together this says of every list what becomes of it, and which expressions come from lists.
-/

namespace Lookahead

/-! ## 1. Refusal -/

/-- A mismatch stays one, whatever comes behind. -/
theorem Mismatches.append {ns : List Name} {b : Bracket} (h : Mismatches ns b) (ms : List Name) :
    Mismatches (ns ++ ms) b := by
  obtain ⟨before, after, bs, rfl, hopen, hb⟩ := h
  exact ⟨before, after ++ ms, bs, by rw [List.append_assoc, List.cons_append], hopen, hb⟩

/-- Brackets are left open, or there is a mismatch. -/
theorem exists_leavesOpen_or_mismatches (ns : List Name) :
    (∃ bs, LeavesOpen bs ns) ∨ ∃ b, Mismatches ns b := by
  induction ns using List.reverseRecOn with
  | nil => exact Or.inl ⟨[], .nil .nil⟩
  | append_singleton ns n ih =>
    obtain ⟨bs, hopen⟩ | ⟨b, hb⟩ := ih
    · by_cases hn : IsBracket n
      · obtain ⟨b, rfl | rfl⟩ := hn
        · exact Or.inl ⟨b :: bs, hopen.opening b⟩
        · -- a closing bracket depends on the innermost one that is open
          by_cases hb : bs.head? = some b
          · obtain ⟨bs, rfl⟩ := List.head?_eq_some_iff.1 hb
            exact Or.inl ⟨bs, hopen.closing⟩
          · exact Or.inr ⟨b, ns, [], bs, rfl, hopen, hb⟩
      · exact Or.inl ⟨bs, hopen.append (.cons hn .nil)⟩
    · exact Or.inr ⟨b, hb.append [n]⟩

/-- The reader has a level for each bracket that is left open. -/
theorem LeavesOpen.exists_readNames {bs : List Bracket} {ns : List Name} (h : LeavesOpen bs ns) :
    ∃ (outer : List (Bracket × Level)) (level : Level), outer.map (·.1) = bs ∧
      ∀ lhs rest, Expr.readNames lhs [] .empty (ns ++ rest) =
        Expr.readNames lhs outer level rest := by
  induction h with
  | nil h =>
    obtain ⟨level, hread, -⟩ := h.exists_readNames .empty
    exact ⟨[], level, rfl, fun lhs rest => hread lhs [] rest⟩
  | @cons bs b ns ms _ h' ih =>
    obtain ⟨outer, around, rfl, hread⟩ := ih
    obtain ⟨level, hread', -⟩ := h'.exists_readNames .empty
    refine ⟨(b, around) :: outer, level, rfl, fun lhs rest => ?_⟩
    rw [List.append_assoc, hread, List.cons_append, Expr.readNames_opening, hread']

/-- A mismatch is refused. -/
theorem Mismatches.ofNames_eq {ns : List Name} {b : Bracket} (h : Mismatches ns b)
    (lhs : Option Name) :
    Expr.ofNames ns lhs = .error (.unbalanced (Mark.closing b).name lhs) := by
  obtain ⟨before, after, bs, rfl, hopen, hb⟩ := h
  obtain ⟨outer, level, rfl, hread⟩ := hopen.exists_readNames
  rw [Expr.ofNames, hread, Expr.readNames_closing_of_ne hb]

/-- A bracket that is left open is refused. -/
theorem LeavesOpen.ofNames_eq {bs : List Bracket} {b : Bracket} {ns : List Name}
    (h : LeavesOpen (b :: bs) ns) (lhs : Option Name) :
    Expr.ofNames ns lhs = .error (.unclosed (Mark.closing b).name lhs) := by
  obtain ⟨outer, level, hbs, hread⟩ := h.exists_readNames
  have hend := hread lhs []
  rw [List.append_nil] at hend
  rw [Expr.ofNames, hend]
  cases outer with
  | nil => cases hbs
  | cons open' outer =>
    obtain rfl : open'.1 = b := (List.cons.inj hbs).1
    rfl

/-- A list that leaves brackets open has no mismatch. -/
theorem LeavesOpen.not_mismatches {bs : List Bracket} {b : Bracket} {ns : List Name}
    (h : LeavesOpen (b :: bs) ns) (b' : Bracket) : ¬ Mismatches ns b' := by
  intro hm
  have hread := h.ofNames_eq none
  rw [hm.ofNames_eq none] at hread
  cases hread

namespace Expr

/-! ## 2. What has been read -/

theorem sequenceToNames_append (as bs : List Atom) :
    sequenceToNames (as ++ bs) = sequenceToNames as ++ sequenceToNames bs := by
  induction as with
  | nil => rfl
  | cons a as ih =>
    rw [List.cons_append, sequenceToNames, sequenceToNames, ih, List.append_assoc]

theorem restToNames_append (e e' : List (List Atom)) :
    restToNames (e ++ e') = restToNames e ++ restToNames e' := by
  induction e with
  | nil => rfl
  | cons alternative rest ih =>
    rw [List.cons_append, restToNames, restToNames, ih, List.cons_append, List.append_assoc]

/-- With a bar in front, all alternatives are written alike. -/
theorem cons_toNames {e : Expr} (he : e ≠ []) : Mark.bar.name :: toNames e = restToNames e := by
  cases e with
  | nil => exact absurd rfl he
  | cons alternative rest => rw [toNames, restToNames]

theorem Level.alternatives_ne_nil (l : Level) : l.alternatives ≠ [] := by
  simp [Level.alternatives]

theorem cons_toNames_alternatives (l : Level) : Mark.bar.name :: toNames l.alternatives =
    restToNames l.finished ++ Mark.bar.name :: sequenceToNames l.current := by
  rw [cons_toNames (Level.alternatives_ne_nil l), Level.alternatives, restToNames_append,
    restToNames, restToNames, List.append_nil]

theorem toNames_push (l : Level) (a : Atom) :
    toNames (l.push a).alternatives = toNames l.alternatives ++ atomToNames a := by
  refine List.cons_injective (a := Mark.bar.name) ?_
  rw [cons_toNames_alternatives, ← List.cons_append, cons_toNames_alternatives, Level.push,
    sequenceToNames_append, sequenceToNames, sequenceToNames, List.append_nil, List.append_assoc,
    List.cons_append]

theorem toNames_bar (l : Level) :
    toNames l.bar.alternatives = toNames l.alternatives ++ [Mark.bar.name] := by
  refine List.cons_injective (a := Mark.bar.name) ?_
  rw [cons_toNames_alternatives, ← List.cons_append, Level.bar,
    cons_toNames (Level.alternatives_ne_nil l), sequenceToNames]

/-- The names that the reader has read when it has come to a stack and an innermost level. -/
def namesRead : List (Bracket × Level) → Level → List Name
  | [], level => toNames level.alternatives
  | (b, around) :: outer, level =>
    namesRead outer around ++ (Mark.opening b).name :: toNames level.alternatives

theorem namesRead_push (outer : List (Bracket × Level)) (level : Level) (a : Atom) :
    namesRead outer (level.push a) = namesRead outer level ++ atomToNames a := by
  cases outer with
  | nil => exact toNames_push level a
  | cons open' outer =>
    rw [namesRead, namesRead, toNames_push, List.append_assoc, List.cons_append]

theorem namesRead_bar (outer : List (Bracket × Level)) (level : Level) :
    namesRead outer level.bar = namesRead outer level ++ [Mark.bar.name] := by
  cases outer with
  | nil => exact toNames_bar level
  | cons open' outer =>
    rw [namesRead, namesRead, toNames_bar, List.append_assoc, List.cons_append]

theorem bracketOf_suffix (b : Bracket) : bracketOf b.suffix = b := by
  cases b <;> rfl

/-- Every step adds the name that is read. -/
theorem ReaderStep.namesRead_eq {outer outer' : List (Bracket × Level)} {level level' : Level}
    {n : Name} (hs : ReaderStep outer level n outer' level') :
    namesRead outer' level' = namesRead outer level ++ [n] := by
  cases hs with
  | name hn => exact namesRead_push outer level (.ofName n)
  | bar => exact namesRead_bar outer level
  | opening b => rfl
  | closing b around =>
    rw [namesRead_push, namesRead, atomToNames, bracketOf_suffix, List.append_assoc,
      List.cons_append]

/-- What is read from a list is written as that list. -/
theorem toNames_of_ofNames {lhs : Option Name} {ns : List Name} {e : Expr}
    (h : ofNames ns lhs = .ok e) : toNames e = ns := by
  obtain ⟨level, rfl, hread⟩ := exists_level_of_readNames
    (I := fun outer level before => namesRead outer level = before)
    (fun hs hread => by rw [hs.namesRead_eq, hread]) [] h rfl
  rwa [namesRead, List.nil_append] at hread

/-! ## 3. Writing -/

/-- An atom that can be spelled in names: a name that is no mark, read once, or a group of at least
one alternative whose suffix has brackets of its own. -/
inductive IsSpelledAtom : Atom → Prop
  | name {n : Name} (hn : isMark n = false) : IsSpelledAtom (.ofName n)
  | group {alternatives : List (List Atom)} (b : Bracket) (hne : alternatives ≠ [])
      (h : ∀ as ∈ alternatives, ∀ a ∈ as, IsSpelledAtom a) :
      IsSpelledAtom (.group alternatives b.suffix none)

/-- An expression of at least one alternative, all of whose atoms can be spelled in names. -/
def IsSpelled (e : Expr) : Prop := e ≠ [] ∧ ∀ as ∈ e, ∀ a ∈ as, IsSpelledAtom a

theorem isSpelled_empty : IsSpelled Level.empty.alternatives :=
  ⟨Level.alternatives_ne_nil _, List.forall_mem_singleton.2 fun _ ha => absurd ha List.not_mem_nil⟩

theorem isSpelled_push {level : Level} (h : IsSpelled level.alternatives) {a : Atom}
    (ha : IsSpelledAtom a) : IsSpelled (level.push a).alternatives := by
  obtain ⟨-, h⟩ := h
  rw [Level.alternatives, List.forall_mem_append, List.forall_mem_singleton] at h
  refine ⟨Level.alternatives_ne_nil _, List.forall_mem_append.2 ⟨h.1, ?_⟩⟩
  exact List.forall_mem_singleton.2 (List.forall_mem_append.2 ⟨h.2, List.forall_mem_singleton.2 ha⟩)

theorem isSpelled_bar {level : Level} (h : IsSpelled level.alternatives) :
    IsSpelled level.bar.alternatives :=
  ⟨Level.alternatives_ne_nil _, List.forall_mem_append.2
    ⟨h.2, List.forall_mem_singleton.2 fun _ ha => absurd ha List.not_mem_nil⟩⟩

/-- If everything that was read so far can be spelled, then so it can after the next step. -/
theorem ReaderStep.isSpelled {outer outer' : List (Bracket × Level)} {level level' : Level}
    {n : Name} (hs : ReaderStep outer level n outer' level') (hlevel : IsSpelled level.alternatives)
    (houter : ∀ o ∈ outer, IsSpelled o.2.alternatives) :
    IsSpelled level'.alternatives ∧ ∀ o ∈ outer', IsSpelled o.2.alternatives := by
  cases hs with
  | name hn => exact ⟨isSpelled_push hlevel (.name hn), houter⟩
  | bar => exact ⟨isSpelled_bar hlevel, houter⟩
  | opening b => exact ⟨isSpelled_empty, List.forall_mem_cons.2 ⟨hlevel, houter⟩⟩
  | closing b around =>
    obtain ⟨haround, hrest⟩ := List.forall_mem_cons.1 houter
    exact ⟨isSpelled_push haround (.group b hlevel.1 hlevel.2), hrest⟩

/-- What is read from a list can be spelled in names. -/
theorem isSpelled_of_ofNames {lhs : Option Name} {ns : List Name} {e : Expr}
    (h : ofNames ns lhs = .ok e) : IsSpelled e := by
  obtain ⟨level, rfl, hlevel, -⟩ := exists_level_of_readNames
    (I := fun outer level _ => IsSpelled level.alternatives ∧
      ∀ o ∈ outer, IsSpelled o.2.alternatives)
    (fun hs hI => hs.isSpelled hI.1 hI.2) [] h
    ⟨isSpelled_empty, fun _ ho => absurd ho List.not_mem_nil⟩
  exact hlevel

/-- Reading the names of the atom adds it to the innermost level. -/
def IsReadBack (a : Atom) : Prop :=
  ∀ lhs outer (level : Level) rest, readNames lhs outer level (atomToNames a ++ rest) =
    readNames lhs outer (level.push a) rest

theorem readNames_sequenceToNames {as : List Atom} (h : ∀ a ∈ as, IsReadBack a)
    (lhs : Option Name) (outer : List (Bracket × Level)) (level : Level) (rest : List Name) :
    readNames lhs outer level (sequenceToNames as ++ rest) =
      readNames lhs outer ⟨level.finished, level.current ++ as⟩ rest := by
  induction as generalizing level with
  | nil => rw [sequenceToNames, List.nil_append, List.append_nil]
  | cons a as ih =>
    rw [List.forall_mem_cons] at h
    rw [sequenceToNames, List.append_assoc, h.1, ih h.2, Level.push, List.append_assoc,
      List.singleton_append]

/-- Reading alternatives, each behind a bar, adds them to those of the innermost level. -/
theorem exists_readNames_restToNames {e : Expr} (h : ∀ as ∈ e, ∀ a ∈ as, IsReadBack a)
    (level : Level) :
    ∃ level' : Level, level'.alternatives = level.alternatives ++ e ∧ ∀ lhs outer rest,
      readNames lhs outer level (restToNames e ++ rest) = readNames lhs outer level' rest := by
  induction e generalizing level with
  | nil => exact ⟨level, (List.append_nil _).symm, fun _ _ _ => rfl⟩
  | cons as e ih =>
    rw [List.forall_mem_cons] at h
    obtain ⟨level', halternatives, hread⟩ := ih h.2 ⟨level.alternatives, as⟩
    refine ⟨level', ?_, fun lhs outer rest => ?_⟩
    · rw [halternatives, Level.alternatives, List.append_assoc, List.singleton_append]
    · rw [restToNames, List.cons_append, readNames_bar, List.append_assoc,
        readNames_sequenceToNames h.1, Level.bar, List.nil_append, hread]

/-- Reading an expression where nothing has been read yet gives its alternatives. -/
theorem exists_readNames_toNames {e : Expr} (hne : e ≠ [])
    (h : ∀ as ∈ e, ∀ a ∈ as, IsReadBack a) :
    ∃ level : Level, level.alternatives = e ∧ ∀ lhs outer rest,
      readNames lhs outer .empty (toNames e ++ rest) = readNames lhs outer level rest := by
  cases e with
  | nil => exact absurd rfl hne
  | cons as e =>
    rw [List.forall_mem_cons] at h
    obtain ⟨level, halternatives, hread⟩ := exists_readNames_restToNames h.2 ⟨[], as⟩
    refine ⟨level, halternatives, fun lhs outer rest => ?_⟩
    rw [toNames, List.append_assoc, readNames_sequenceToNames h.1, Level.empty, List.nil_append,
      hread]

theorem IsSpelledAtom.isReadBack {a : Atom} (h : IsSpelledAtom a) : IsReadBack a := by
  induction h with
  | name hn =>
    intro lhs outer level rest
    exact readNames_name hn
  | group b hne _ ih =>
    intro lhs outer level rest
    obtain ⟨inner, rfl, hread⟩ := exists_readNames_toNames hne ih
    rw [atomToNames, bracketOf_suffix, List.cons_append, readNames_opening, List.append_assoc,
      hread, List.singleton_append, readNames_closing]

/-- Reading undoes writing. -/
theorem IsSpelled.ofNames_toNames {e : Expr} (h : IsSpelled e) (lhs : Option Name) :
    ofNames (toNames e) lhs = .ok e := by
  obtain ⟨level, rfl, hread⟩ :=
    exists_readNames_toNames h.1 fun as has a ha => (h.2 as has a ha).isReadBack
  have hend := hread lhs [] []
  rwa [List.append_nil] at hend

/-! ## 4. Reading and writing -/

/-- **The reader accepts exactly the lists whose brackets match, and loses nothing.**  A balanced
list is read into an expression that is written as the list again.  Any other list is refused, and
what is reported is the first closing bracket that does not match or, if there is none, the closing
bracket of the innermost one that is left open.  Conversely, an expression that can be spelled in
names is what is read from its names. -/
theorem ofNames_decided (lhs : Option Name) :
    (∀ ns, Balanced ns → ∃ e, ofNames ns lhs = .ok e ∧ toNames e = ns) ∧
      (∀ ns, ¬ Balanced ns → ∃ fault b, ofNames ns lhs = .error fault ∧
        fault.label = "ExtendedNotationError" ∧ fault.symbol? = some (Mark.closing b).name ∧
        (Mismatches ns b ∨ (∀ b', ¬ Mismatches ns b') ∧ ∃ bs, LeavesOpen (b :: bs) ns)) ∧
      ∀ e, IsSpelled e → ofNames (toNames e) lhs = .ok e := by
  refine ⟨fun ns h => ?_, fun ns h => ?_, fun e h => h.ofNames_toNames lhs⟩
  · obtain ⟨e, he⟩ := (exists_ofNames_iff lhs).2 h
    exact ⟨e, he, toNames_of_ofNames he⟩
  · obtain ⟨bs, hopen⟩ | ⟨b, hb⟩ := exists_leavesOpen_or_mismatches ns
    · cases bs with
      | nil =>
        cases hopen with
        | nil hbalanced => exact absurd hbalanced h
      | cons b bs =>
        exact ⟨_, b, hopen.ofNames_eq lhs, rfl, rfl, Or.inr ⟨hopen.not_mismatches, bs, hopen⟩⟩
    · exact ⟨_, b, hb.ofNames_eq lhs, rfl, rfl, Or.inl hb⟩

/-- A group with a repetition and an empty alternative in it, read and written; and a bracket that
is closed by one of another kind. -/
theorem ofNames_repetition_or_nothing :
    (Balanced ["\\(", "\\\x7b", "a", "\\\x7d", "\\|", "\\)"] ∧
      ∃ e, ofNames ["\\(", "\\\x7b", "a", "\\\x7d", "\\|", "\\)"] (some "S") = .ok e ∧
        toNames e = (["\\(", "\\\x7b", "a", "\\\x7d", "\\|", "\\)"] : List Name)) ∧
    (¬ Balanced ["\\(", "a", "\\]", "\\)"] ∧
      ∃ fault b, ofNames ["\\(", "a", "\\]", "\\)"] (some "S") = .error fault ∧
        fault.label = "ExtendedNotationError" ∧ fault.symbol? = some (Mark.closing b).name ∧
        (Mismatches ["\\(", "a", "\\]", "\\)"] b ∨
          (∀ b', ¬ Mismatches ["\\(", "a", "\\]", "\\)"] b') ∧
            ∃ bs, LeavesOpen (b :: bs) ["\\(", "a", "\\]", "\\)"])) ∧
    IsSpelled [[.group [[.group [[.ofName "a"]] .star none], []] .once none]] ∧
      ofNames (toNames [[.group [[.group [[.ofName "a"]] .star none], []] .once none]]) (some "S") =
        .ok [[.group [[.group [[.ofName "a"]] .star none], []] .once none]] := by
  obtain ⟨haccepts, hrefuses, hreads⟩ := ofNames_decided (some "S")
  have hbalanced : Balanced ["\\(", "\\\x7b", "a", "\\\x7d", "\\|", "\\)"] :=
    (exists_ofNames_iff none).1 ⟨_, rfl⟩
  have hunbalanced : ¬ Balanced ["\\(", "a", "\\]", "\\)"] := by
    intro h
    obtain ⟨e, he⟩ := (exists_ofNames_iff none).2 h
    cases he
  have hname : IsSpelledAtom (.ofName "a") := .name rfl
  have hstar : IsSpelledAtom (.group [[.ofName "a"]] .star none) :=
    .group .curly (by simp) (by simpa using hname)
  have hgroup : IsSpelledAtom (.group [[.group [[.ofName "a"]] .star none], []] .once none) :=
    .group .round (by simp) (by simpa using hstar)
  have hspelled : IsSpelled [[.group [[.group [[.ofName "a"]] .star none], []] .once none]] :=
    ⟨by simp, by simpa using hgroup⟩
  exact ⟨⟨hbalanced, haccepts _ hbalanced⟩, ⟨hunbalanced, hrefuses _ hunbalanced⟩, hspelled,
    hreads _ hspelled⟩

end Expr

end Lookahead
