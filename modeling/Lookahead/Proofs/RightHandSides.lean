import Lookahead.Proofs.ExtendedQuery

/-!
# FIRST of a non-terminal by its right-hand sides

The right-hand sides of a non-terminal are given to the constructor, and they can be asked about one
by one.  What is known of the non-terminal is a choice between them.

## 1. Marks in a production and in a question

A production that uses a mark is an extended one, even if all its marks are declared.  A question is
about an extended sequence only if some mark in it is not declared.  So there is one case in which
the same names are read in two ways: where marks are used and all of them are declared.  Then the
production reads them as marks, and the question as symbols (`Grammar.firstOf_of_isReading`).

## 2. Productions among those of a grammar

When productions are lowered one after the other, each becomes a block of its own.  No block has
productions for what was invented in another one, so all blocks are embedded in the productions of
the grammar.  Hence every right-hand side adds the front that its structure gives
(`exists_isReading_of_lowerProduction`), and the front of a non-terminal is the choice between those
of its right-hand sides (`exists_readings_of_lowerProductionsFrom`).  This needs that no left-hand
side is an invented name, or a block would have foreign productions
(`Grammar.firstOf_inventedLhs`).
-/

namespace Lookahead

/-! ## 1. Marks in a production and in a question -/

/-- The front that a right-hand side gives to its production: if it uses marks, that of its
structure, and otherwise that of the sequence. -/
inductive IsReading (first : Table) (nullable : NameSet) : List Name → Front → Prop
  | plain {u : List Name} (hu : hasMarks u = false) :
      IsReading first nullable u (firstOfSequence first nullable u)
  | marks {u : List Name} {e : Expr} (hu : hasMarks u = true) (he : Expr.ofNames u none = .ok e) :
      IsReading first nullable u (Expr.first first nullable e)

namespace Grammar

variable {g : Grammar}

/-- A question about a right-hand side whose names are declared gets the front that the production
has, unless all marks of it are declared. -/
theorem firstOf_of_isReading {u : List Name} {part : Front}
    (h : IsReading g.first g.nullable u part)
    (hd : ∀ n ∈ u, isMark n = false → g.catalog.contains n = true) :
    g.firstOf u = .ok (if hasMarks u = true ∧ g.readsExtended u = false
      then firstOfSequence g.first g.nullable u else part) := by
  cases h with
  | plain hu =>
    have hall : ∀ n ∈ u, g.catalog.contains n = true := by
      intro n hn
      rw [hasMarks, List.any_eq_false] at hu
      exact hd n hn (by simpa using hu n hn)
    rw [firstOf_of_declared hall, ite_self]
  | marks hu he =>
    cases hext : g.readsExtended u with
    | true => simp [firstOf_of_readsExtended hext he hd]
    | false =>
      have hall : ∀ n ∈ u, g.catalog.contains n = true := by
        intro n hn
        cases hm : isMark n with
        | false => exact hd n hn hm
        | true =>
          rw [readsExtended, List.any_eq_false] at hext
          simpa [hm] using hext n hn
      rw [firstOf_of_declared hall, if_pos ⟨hu, rfl⟩]

end Grammar

/-! ## 2. Productions among those of a grammar -/

section Blocks

variable {ts : List Name} {qs : List Production} {first : Table} {nullable : NameSet}

/-- A production adds to its left-hand side the front of its right-hand side. -/
theorem exists_isReading_of_lowerProduction (hsolved : FirstSolved ts qs first nullable)
    {s s' : Supply} {p : Production} (hb : hasMarks p.rhs = true → Balanced p.rhs)
    {block : List Production} {fresh : List Name}
    (hp : lowerProduction s p = .ok ((block, fresh), s')) (hs : p.lhs ∈ s.taken)
    (h : Lowered.EmbeddedIn ⟨[], block, fresh, []⟩ ts qs) :
    IsReading first nullable p.rhs (firstOfChoice first nullable (rhssOf block p.lhs)) := by
  cases hm : hasMarks p.rhs with
  | false =>
    rw [lowerProduction, hm] at hp
    obtain rfl : [p] = block := congrArg (·.1.1) (Except.ok.inj hp)
    have hown : rhssOf [p] p.lhs = [p.rhs] := rhssOf_eq_map (by simp)
    rw [hown, firstOfChoice_singleton]
    exact .plain hm
  | true =>
    obtain ⟨e, he, -, hleaves⟩ := (hb hm).exists_ofNames
    have heq := Except.ok.inj ((lowerProduction_of_ofNames s hm (he _)).symm.trans hp)
    obtain rfl : ownFirst p.lhs (Expr.lowerInto p.lhs s e).1.productions = block :=
      congrArg (·.1.1) heq
    obtain rfl : (Expr.lowerInto p.lhs s e).1.fresh = fresh := congrArg (·.1.2) heq
    have hembedded : (Expr.lowerInto p.lhs s e).1.EmbeddedIn ts qs := by
      intro n hn
      obtain ⟨hts, hrhss⟩ := h n hn
      exact ⟨hts, hrhss.trans (rhssOf_ownFirst ..)⟩
    have hknown : .unknown ∉ Expr.leaves e := by simp [hleaves, plainLeaves]
    rw [rhssOf_ownFirst, Expr.firstOfChoice_lowerInto hsolved p.lhs s e hs hknown hembedded]
    exact .marks hm (he none)

/-- The choice between what productions are lowered to is the choice between the fronts of the
right-hand sides as they were given. -/
theorem exists_readings_of_lowerProductionsFrom (hsolved : FirstSolved ts qs first nullable)
    {s : Supply} {ps lowered : List Production} {fresh : List Name}
    (hl : lowerProductionsFrom s ps = .ok (lowered, fresh)) (hs : ∀ p ∈ ps, p.lhs ∈ s.taken)
    {n : Name} (hn : n ∈ s.taken) (h : Lowered.EmbeddedIn ⟨[], lowered, fresh, []⟩ ts qs) :
    ∃ parts, List.Forall₂ (IsReading first nullable) (rhssOf ps n) parts ∧
      firstOfChoice first nullable (rhssOf lowered n) = parts.foldr Front.join (∅, false) := by
  have hb := exists_lowerProductionsFrom_iff.1 ⟨_, hl⟩
  induction ps generalizing s lowered fresh with
  | nil =>
    obtain rfl : [] = lowered := congrArg (·.1) (Except.ok.inj hl)
    exact ⟨[], .nil, rfl⟩
  | cons p ps ih =>
    rw [List.forall_mem_cons] at hb hs
    obtain ⟨block, new, s', hp, hblock⟩ := exists_lowerProduction s hb.1
    obtain ⟨blocks, more, s'', hps, hblocks⟩ := exists_lowerProductionsFrom s' hb.2
    obtain ⟨rfl, rfl⟩ : block ++ blocks = lowered ∧ new ++ more = fresh := by
      rw [lowerProductionsFrom, hp] at hl
      simpa [hps, Except.map] using hl
    have hs' : ∀ m ∈ ps.map (·.lhs), m ∈ s.taken := by simpa using hs.2
    obtain ⟨hhere, hlater⟩ :=
      Lowered.EmbeddedIn.of_append hblock hblocks (by simpa using hs.1) hs' h
    obtain ⟨parts, hparts, hchoice⟩ := ih hps (fun q hq => hblock.taken_subset (hs.2 q hq))
      (hblock.taken_subset hn) hlater hb.2
    rw [rhssOf_append, firstOfChoice_append, hchoice]
    by_cases hlhs : p.lhs = n
    · subst hlhs
      have hcons : rhssOf (p :: ps) p.lhs = p.rhs :: rhssOf ps p.lhs := by simp [rhssOf]
      rw [hcons]
      exact ⟨_, .cons (exists_isReading_of_lowerProduction hsolved hb.1 hp hs.1 hhere) hparts, rfl⟩
    · -- a taken name is not invented, so the block has no production of it
      have hnone : rhssOf block n = [] :=
        hblock.rhssOf_eq_nil (by simpa using Ne.symm hlhs) fun hnew => hblock.notMem n hnew hn
      have hskip : rhssOf (p :: ps) n = rhssOf ps n := by simp [rhssOf, hlhs]
      rw [hnone, hskip]
      exact ⟨parts, hparts, Front.empty_join _⟩

end Blocks

namespace Grammar

variable {g : Grammar} {ts ns : List Name} {ps : List Production} {start : Option Name}

/-- What an extended grammar is made of. -/
theorem exists_lowered_of_extended (h : extended ts ns ps start = .ok g) :
    ∃ lowered fresh, lowerProductions ps (ts ++ ns) = .ok (lowered, fresh) ∧
      g = analyse (.frozen (firstOccurrences ts) (firstOccurrences (ns ++ fresh)) start) lowered := by
  cases hl : lowerProductions ps (ts ++ ns) with
  | error e =>
    rw [extended, hl] at h
    cases h
  | ok r =>
    rw [extended, hl] at h
    exact ⟨r.1, r.2, rfl, eq_analyse_of_plain h⟩

/-- Names in right-hand sides are declared in the grammar, marks excepted. -/
theorem contains_of_extended (h : extended ts ns ps start = .ok g) {p : Production} (hp : p ∈ ps)
    {n : Name} (hn : n ∈ p.rhs) (hm : isMark n = false) : g.catalog.contains n = true := by
  have hadmissible := exists_extended_iff.1 ⟨g, h⟩
  obtain ⟨lowered, fresh, hl, rfl⟩ := exists_lowered_of_extended h
  have hmem := hadmissible.rhs_mem p hp n hn hm
  simp only [invented, hl] at hmem
  rw [Catalog.contains_iff]
  exact hmem.imp mem_firstOccurrences.2 mem_firstOccurrences.2

/-- **Productions and questions.**  In a grammar of productions that may use marks, all of declared
left-hand sides, the question about a declared non-terminal is answered by the union of the fronts
of its right-hand sides.  The front of a right-hand side is what the question about it, as it was
given, is answered with; except that a right-hand side that uses marks, all of which are declared,
is answered as a sequence of symbols. -/
theorem firstOf_nonterminal (h : extended ts ns ps start = .ok g) (hlhs : ∀ p ∈ ps, p.lhs ∈ ns)
    {n : Name} (hn : n ∈ ns) :
    ∃ parts, g.firstOf [n] = .ok (parts.foldr Front.join (∅, false)) ∧
      List.Forall₂ (fun u part => IsReading g.first g.nullable u part ∧
        g.firstOf u = .ok (if hasMarks u = true ∧ g.readsExtended u = false
          then firstOfSequence g.first g.nullable u else part)) (rhssOf ps n) parts := by
  have hg := wellFormed_of_extended h
  obtain ⟨lowered, fresh, hl, hanalyse⟩ := exists_lowered_of_extended h
  have hlowered : g.productions = lowered := by rw [hanalyse]; rfl
  have hterminals : ∀ m, m ∈ g.catalog.terminals ↔ m ∈ ts := by
    rw [hanalyse]
    exact fun m => mem_firstOccurrences
  have hnonterminal : n ∈ g.catalog.nonterminals := by
    rw [hanalyse]
    exact mem_firstOccurrences.2 (List.mem_append_left fresh hn)
  have hnt : n ∉ g.catalog.terminals := fun ht => hg.valid.disjoint n ht hnonterminal
  -- nothing invented is a terminal, and there are no productions but the lowered ones
  have hembedded : Lowered.EmbeddedIn ⟨[], lowered, fresh, []⟩ g.catalog.terminals
      g.productions := by
    intro m hm
    have hnew := (invented_new ps (ts ++ ns)).1 m (by simpa only [invented, hl] using hm)
    refine ⟨fun ht => hnew (List.mem_append_left ns ((hterminals m).1 ht)), ?_⟩
    rw [hlowered]
  obtain ⟨parts, hparts, hchoice⟩ := exists_readings_of_lowerProductionsFrom hg.firstSolved hl
    (fun p hp => List.mem_append_right ts (hlhs p hp)) (List.mem_append_right ts hn) hembedded
  refine ⟨parts, ?_, ?_⟩
  · have hdeclared : ∀ m ∈ [n], g.catalog.contains m = true := by
      simpa using Or.inr hnonterminal
    rw [firstOf_of_declared hdeclared, firstOfSequence_singleton, hg.firstSolved.front_eq n hnt,
      hlowered, hchoice]
  · have hdeclared : ∀ u ∈ rhssOf ps n, ∀ m ∈ u, isMark m = false → g.catalog.contains m = true :=
      fun u hu m hm => contains_of_extended h (mem_rhssOf.1 hu) hm
    refine ((List.forall₂_and_left _ _).2 ⟨hdeclared, hparts⟩).imp ?_
    rintro u part ⟨hu, hreading⟩
    exact ⟨hreading, firstOf_of_isReading hreading hu⟩

/-- A repetition of a declared bar or a letter: one mark in it is declared, the others are not. -/
theorem firstOf_repeatedBar :
    let ps : List Production := [⟨"S", [(Mark.opening .curly).name, "a", Mark.bar.name, "b",
      (Mark.closing .curly).name]⟩, ⟨"A", []⟩, ⟨"S", ["A", "b"]⟩]
    ∃ g, extended ["a", "b", Mark.bar.name] ["S", "A"] ps (some "S") = .ok g ∧
      ∃ parts, g.firstOf ["S"] = .ok (parts.foldr Front.join (∅, false)) ∧
        List.Forall₂ (fun u part => IsReading g.first g.nullable u part ∧
          g.firstOf u = .ok (if hasMarks u = true ∧ g.readsExtended u = false
            then firstOfSequence g.first g.nullable u else part)) (rhssOf ps "S") parts := by
  intro ps
  obtain ⟨g, hg⟩ : ∃ g, extended ["a", "b", Mark.bar.name] ["S", "A"] ps (some "S") = .ok g :=
    ⟨_, rfl⟩
  exact ⟨g, hg, firstOf_nonterminal hg (by decide) (by decide)⟩

/-- The bar is declared, so it parts the production, but not the same sequence in a question. -/
theorem firstOf_declaredBar :
    ∃ g, extended ["a", "b", Mark.bar.name] ["S"] [⟨"S", ["a", Mark.bar.name, "b"]⟩] (some "S") =
        .ok g ∧
      ∃ part part', g.firstOf ["S"] = .ok part ∧ g.firstOf ["a", Mark.bar.name, "b"] = .ok part' ∧
        ("b" : Name) ∈ part.1 ∧ ("b" : Name) ∉ part'.1 := by
  have hg : extended ["a", "b", Mark.bar.name] ["S"] [⟨"S", ["a", Mark.bar.name, "b"]⟩] (some "S") =
      .ok (analyse (.frozen ["a", "b", Mark.bar.name] ["S"] (some "S"))
        [⟨"S", ["a"]⟩, ⟨"S", ["b"]⟩]) := rfl
  obtain ⟨first, nullable, hok, hfirst, -⟩ :=
    firstOf_exact ⟨_, _, _, _, Or.inr hg⟩ (u := ["S"]) (by decide)
  obtain ⟨first', nullable', hok', hnone, -⟩ :=
    firstOf_exact ⟨_, _, _, _, Or.inr hg⟩ (u := ["a", Mark.bar.name, "b"]) (by decide)
  refine ⟨_, hg, (first, nullable), (first', nullable'), hok, hok', ?_, fun hb => ?_⟩
  · exact (hfirst "b").2 ⟨by decide, [], .of_mem (p := ⟨"S", ["b"]⟩) (by decide)⟩
  · -- nothing but the sequence itself comes of its letters
    obtain ⟨-, v, hd⟩ := (hnone "b").1 hb
    have hsame := hd.eq_of_forall_ne (by decide)
    exact absurd (List.cons.inj hsame).1 (by decide)

/-- Left-hand sides have to be declared: the group invents the name of the second production, so it
starts with `c` in the first one, but not in a question. -/
theorem firstOf_inventedLhs :
    let u : List Name :=
      [(Mark.opening .round).name, "a", Mark.bar.name, "b", (Mark.closing .round).name]
    ∃ g, extended ["a", "b", "c"] ["S"] [⟨"S", u⟩, ⟨"__grp1", ["c"]⟩] (some "S") = .ok g ∧
      ∃ part part', g.firstOf ["S"] = .ok part ∧ g.firstOf u = .ok part' ∧
        ("c" : Name) ∈ part.1 ∧ ("c" : Name) ∉ part'.1 := by
  intro u
  let ps : List Production :=
    [⟨"S", ["__grp1"]⟩, ⟨"__grp1", ["a"]⟩, ⟨"__grp1", ["b"]⟩, ⟨"__grp1", ["c"]⟩]
  have hg : extended ["a", "b", "c"] ["S"] [⟨"S", u⟩, ⟨"__grp1", ["c"]⟩] (some "S") =
      .ok (analyse (.frozen ["a", "b", "c"] ["S", "__grp1"] (some "S")) ps) := rfl
  obtain ⟨first, nullable, hok, hfirst, -⟩ :=
    firstOf_exact ⟨_, _, _, _, Or.inr hg⟩ (u := ["S"]) (by decide)
  have hS : Derives ps ["S"] ["__grp1"] := .of_mem (p := ⟨"S", ["__grp1"]⟩) (by decide)
  have hc : Derives ps ["__grp1"] ["c"] := .of_mem (p := ⟨"__grp1", ["c"]⟩) (by decide)
  refine ⟨_, hg, (first, nullable), _, hok, rfl, ?_, by decide +kernel⟩
  exact (hfirst "c").2 ⟨by decide, [], hS.trans hc⟩

end Grammar

end Lookahead
