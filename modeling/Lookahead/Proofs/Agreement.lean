import Lookahead.Proofs.Construction
import Lookahead.Proofs.Hygiene
import Lookahead.Proofs.Reordering

/-!
# Productions and declarations lead to the same grammar

A list of productions can be made into a grammar in two ways.  Either it is lowered as it is, with
declared terminals and non-terminals; or each production is read as a rule, and the declaration with
these rules is lowered.  On the two ways different names are taken, productions without marks are
handled differently, the invented productions stand elsewhere, and the terminals are declared here
and collected there.  Still the two grammars differ in the order of their productions only.

## 1. Supplies

Supplies **agree** if the same names are taken, in any order and any number of times, and if they
have come to the same numbers.  What is invented next depends on nothing else, so lowering from
supplies that agree gives the same (`Expr.lowerInto_agrees`).

## 2. Rules read from productions

What the reader makes of a list of names is never faulty (`Expr.fault?_of_ofNames`), and a list
without marks is lowered to itself (`Expr.lowerInto_ofName`).

## 3. The two ways

Hence a production and its rule are lowered to the same right-hand sides of each name, and the same
names are invented (`lowerProduction_agrees`), and by induction the same holds of whole lists
(`lowerProductionsFrom_agrees`).  The rest is order independence.
-/

namespace Lookahead

/-! ## 1. Supplies -/

namespace Supply

/-- The same names are taken, and the same numbers are reached. -/
structure Agrees (s s' : Supply) : Prop where
  mem_taken_iff : ∀ n, n ∈ s.taken ↔ n ∈ s'.taken
  count_eq : ∀ p, s.count p = s'.count p

theorem Agrees.symm {s s' : Supply} (h : s.Agrees s') : s'.Agrees s :=
  ⟨fun n => (h.mem_taken_iff n).symm, fun p => (h.count_eq p).symm⟩

theorem count_next (s : Supply) (p q : Purpose) :
    (s.next p).count q = if p = q then s.nextNumber p else s.count q := by
  cases p <;> cases q <;> rfl

/-- All numbers that are skipped are in use. -/
theorem numbered_mem_taken (s : Supply) (p : Purpose) {k : Nat} (hk : s.count p < k)
    (hk' : k < s.nextNumber p) : p.numbered k ∈ s.taken := by
  obtain ⟨i, rfl⟩ := Nat.exists_eq_add_of_le (Nat.succ_le_of_lt hk)
  have hi : i < s.skipped p := by
    rw [nextNumber] at hk'
    omega
  rw [skipped] at hi
  cases hfind : (List.range s.taken.length).find?
      fun i => p.numbered (s.count p + 1 + i) ∉ s.taken with
  | none =>
    rw [hfind] at hi
    simpa using List.find?_eq_none.1 hfind i (List.mem_range.2 hi)
  | some j =>
    rw [hfind] at hi
    obtain ⟨-, -, hall⟩ := List.find?_range_eq_some.1 hfind
    simpa using hall i hi

namespace Agrees

variable {s s' : Supply}

/-- The next number is the first one whose name is free, so supplies that agree come to the same. -/
theorem nextNumber_le (h : s.Agrees s') (p : Purpose) : s.nextNumber p ≤ s'.nextNumber p := by
  by_contra hlt
  have hcount : s.count p < s'.nextNumber p := by
    rw [h.count_eq, nextNumber]
    omega
  have hused := s.numbered_mem_taken p hcount (Nat.lt_of_not_le hlt)
  exact s'.nextName_notMem p ((h.mem_taken_iff _).1 hused)

theorem nextNumber_eq (h : s.Agrees s') (p : Purpose) : s.nextNumber p = s'.nextNumber p :=
  Nat.le_antisymm (h.nextNumber_le p) (h.symm.nextNumber_le p)

theorem nextName_eq (h : s.Agrees s') (p : Purpose) : s.nextName p = s'.nextName p :=
  congrArg p.numbered (h.nextNumber_eq p)

theorem next (h : s.Agrees s') (p : Purpose) : (s.next p).Agrees (s'.next p) where
  mem_taken_iff n := by rw [mem_taken_next, mem_taken_next, h.nextName_eq, h.mem_taken_iff]
  count_eq q := by rw [count_next, count_next, h.nextNumber_eq, h.count_eq]

theorem withSuffix (h : s.Agrees s') (x : Lowered) (suffix : Suffix) :
    (x.withSuffix s suffix).1 = (x.withSuffix s' suffix).1 ∧
      (x.withSuffix s suffix).2.Agrees (x.withSuffix s' suffix).2 := by
  cases suffix with
  | once => exact ⟨rfl, h⟩
  | optional => exact ⟨congrArg x.optional (h.nextName_eq _), h.next .option⟩
  | star => exact ⟨congrArg x.star (h.nextName_eq _), h.next .repetition⟩
  | plus => exact ⟨congrArg x.plus (h.nextName_eq _), h.next .repetition⟩
  | other word => exact ⟨rfl, h⟩

end Agrees

end Supply

namespace Expr

mutual

theorem lowerAtom_agrees {s s' : Supply} (h : s.Agrees s') (a : Atom) :
    (lowerAtom s a).1 = (lowerAtom s' a).1 ∧ (lowerAtom s a).2.Agrees (lowerAtom s' a).2 := by
  match a with
  | .leaf l suffix _ => exact h.withSuffix (Lowered.ofLeaf l) suffix
  | .group [alternative] suffix _ =>
    obtain ⟨hx, hs⟩ := lowerSequence_agrees h alternative
    simp only [lowerAtom, hx]
    exact hs.withSuffix _ suffix
  | .group [] suffix _ =>
    simp only [lowerAtom, h.nextName_eq]
    exact (h.next .group).withSuffix _ suffix
  | .group (alternative :: next :: rest) suffix _ =>
    obtain ⟨hx, hs⟩ := lowerInto_agrees (h.next .group) (s'.nextName .group)
      (alternative :: next :: rest)
    simp only [lowerAtom, h.nextName_eq, hx]
    exact hs.withSuffix _ suffix

theorem lowerSequence_agrees {s s' : Supply} (h : s.Agrees s') (as : List Atom) :
    (lowerSequence s as).1 = (lowerSequence s' as).1 ∧
      (lowerSequence s as).2.Agrees (lowerSequence s' as).2 := by
  match as with
  | [] => exact ⟨rfl, h⟩
  | a :: as =>
    obtain ⟨hx, hs⟩ := lowerAtom_agrees h a
    obtain ⟨hy, hs⟩ := lowerSequence_agrees hs as
    simp only [lowerSequence, hx, hy]
    exact ⟨trivial, hs⟩

/-- An expression is lowered to the same from supplies that agree, and they agree afterwards. -/
theorem lowerInto_agrees {s s' : Supply} (h : s.Agrees s') (lhs : Name) (e : List (List Atom)) :
    (lowerInto lhs s e).1 = (lowerInto lhs s' e).1 ∧
      (lowerInto lhs s e).2.Agrees (lowerInto lhs s' e).2 := by
  match e with
  | [] => exact ⟨rfl, h⟩
  | alternative :: rest =>
    obtain ⟨hx, hs⟩ := lowerSequence_agrees h alternative
    obtain ⟨hy, hs⟩ := lowerInto_agrees hs lhs rest
    simp only [lowerInto, hx, hy]
    exact ⟨trivial, hs⟩

end

/-! ## 2. Rules read from productions -/

theorem fault?_push (l : Level) (a : Atom) :
    fault? (l.push a).alternatives = (fault? l.alternatives).or (atomFault? a) := by
  simp only [Level.alternatives, Level.push, fault?_append, fault?, sequenceFault?_append,
    sequenceFault?, Option.or_none, Option.or_assoc]

theorem fault?_bar (l : Level) : fault? l.bar.alternatives = fault? l.alternatives := by
  rw [Level.alternatives, Level.bar, fault?_append, fault?, sequenceFault?, fault?,
    Option.or_none, Option.or_none]

/-- If nothing that was read so far is faulty, then neither is anything after the next step. -/
theorem ReaderStep.fault?_eq_none {outer outer' : List (Bracket × Level)} {level level' : Level}
    {n : Name} (hs : ReaderStep outer level n outer' level')
    (hlevel : fault? level.alternatives = none)
    (houter : ∀ o ∈ outer, fault? o.2.alternatives = none) :
    fault? level'.alternatives = none ∧ ∀ o ∈ outer', fault? o.2.alternatives = none := by
  cases hs with
  | name hn => exact ⟨by rw [fault?_push, hlevel]; rfl, houter⟩
  | bar => exact ⟨by rw [fault?_bar, hlevel], houter⟩
  | opening b => exact ⟨rfl, List.forall_mem_cons.2 ⟨hlevel, houter⟩⟩
  | closing b around =>
    obtain ⟨haround, hrest⟩ := List.forall_mem_cons.1 houter
    -- brackets stand for suffixes that have a meaning
    have hgroup : atomFault? (.group level.alternatives b.suffix none) = none := by
      rw [atomFault?, hlevel]
      cases b <;> rfl
    exact ⟨by rw [fault?_push, haround, hgroup]; rfl, hrest⟩

/-- What is read from a list of names is never faulty. -/
theorem fault?_of_ofNames {ns : List Name} {lhs : Option Name} {e : Expr}
    (h : ofNames ns lhs = .ok e) : fault? e = none := by
  obtain ⟨level, rfl, hlevel, -⟩ := exists_level_of_readNames
    (I := fun outer level _ => fault? level.alternatives = none ∧
      ∀ o ∈ outer, fault? o.2.alternatives = none)
    (fun hs hI => hs.fault?_eq_none hI.1 hI.2) [] h
    ⟨rfl, fun _ ho => absurd ho List.not_mem_nil⟩
  exact hlevel

/-- The left-hand side shows in faults only. -/
theorem ofNames_congr {ns : List Name} {lhs : Option Name} {e : Expr}
    (h : ofNames ns lhs = .ok e) (lhs' : Option Name) : ofNames ns lhs' = .ok e := by
  obtain ⟨e', he', -⟩ := ((exists_ofNames_iff lhs).1 ⟨e, h⟩).exists_ofNames
  rw [he', ← h, he']

/-- A list without marks is read into one alternative. -/
theorem ofNames_of_not_hasMarks {ns : List Name} (h : hasMarks ns = false) (lhs : Option Name) :
    ofNames ns lhs = .ok [ns.map .ofName] := by
  have hread : ∀ level : Level, readNames lhs [] level ns =
      .ok (Level.mk level.finished (level.current ++ ns.map .ofName)).alternatives := by
    induction ns with
    | nil =>
      intro level
      rw [List.map_nil, List.append_nil]
      rfl
    | cons n ns ih =>
      intro level
      rw [hasMarks, List.any_cons, Bool.or_eq_false_iff] at h
      rw [readNames_name h.1, ih h.2, Level.push, List.map_cons, List.append_assoc]
      rfl
  exact hread .empty

theorem lowerSequence_ofName (s : Supply) (ns : List Name) :
    lowerSequence s (ns.map .ofName) = (⟨ns, [], [], []⟩, s) := by
  induction ns with
  | nil => rfl
  | cons n ns ih =>
    rw [List.map_cons, lowerSequence]
    simp only [Atom.ofName, lowerAtom, Lowered.withSuffix]
    rw [ih]
    rfl

/-- One alternative that consists of names is lowered to itself. -/
theorem lowerInto_ofName (lhs : Name) (s : Supply) (ns : List Name) :
    lowerInto lhs s [ns.map .ofName] = (⟨[], [⟨lhs, ns⟩], [], []⟩, s) := by
  rw [lowerInto, lowerSequence_ofName]
  rfl

end Expr

theorem balanced_of_not_hasMarks {ns : List Name} (h : hasMarks ns = false) : Balanced ns :=
  (exists_ofNames_iff none).1 ⟨_, Expr.ofNames_of_not_hasMarks h none⟩

/-- The rule that a production writes down. -/
def Rule.ofProduction (p : Production) : Except GrammarError Rule :=
  (Expr.ofNames p.rhs none).map (⟨p.lhs, ·, none⟩)

/-- The declaration with a rule for each production. -/
def Declaration.ofProductions (tokens : List Name) (ps : List Production) (start : Name) :
    Except GrammarError Declaration :=
  (ps.mapM Rule.ofProduction).map (⟨tokens, ·, some start⟩)

/-- The rule is what the production writes down. -/
def Production.Writes (p : Production) (r : Rule) : Prop :=
  r.name = p.lhs ∧ Expr.ofNames p.rhs none = .ok r.body

namespace Production.Writes

variable {p : Production} {r : Rule}

theorem leaves_eq (h : p.Writes r) : Expr.leaves r.body = plainLeaves p.rhs := by
  obtain ⟨e, he, -, hleaves⟩ := ((exists_ofNames_iff none).1 ⟨_, h.2⟩).exists_ofNames
  rw [← hleaves, Except.ok.inj (h.2.symm.trans (he none))]

theorem fault?_eq (h : p.Writes r) : Expr.fault? r.body = none := Expr.fault?_of_ofNames h.2

end Production.Writes

/-- Balanced productions can be read as rules. -/
theorem exists_ofProductions {ps : List Production} (h : ∀ p ∈ ps, Balanced p.rhs)
    (ts : List Name) (s : Name) :
    ∃ rules, Declaration.ofProductions ts ps s = .ok ⟨ts, rules, some s⟩ ∧
      List.Forall₂ Production.Writes ps rules := by
  have hread : ∃ rules, ps.mapM Rule.ofProduction = .ok rules ∧
      List.Forall₂ Production.Writes ps rules := by
    induction ps with
    | nil => exact ⟨[], rfl, .nil⟩
    | cons p ps ih =>
      rw [List.forall_mem_cons] at h
      obtain ⟨e, he⟩ := (exists_ofNames_iff none).2 h.1
      obtain ⟨rules, hrules, hwrites⟩ := ih h.2
      refine ⟨⟨p.lhs, e, none⟩ :: rules, ?_, .cons ⟨rfl, he⟩ hwrites⟩
      rw [List.mapM_cons, hrules, Rule.ofProduction, he]
      rfl
  obtain ⟨rules, hrules, hwrites⟩ := hread
  refine ⟨rules, ?_, hwrites⟩
  rw [Declaration.ofProductions, hrules]
  rfl

/-! ## 3. The two ways -/

/-- A production is lowered like its rule, up to the order of what comes of it. -/
theorem lowerProduction_agrees {s s' : Supply} (hs : s.Agrees s') {p : Production} {r : Rule}
    (h : p.Writes r) :
    ∃ block t, lowerProduction s p =
        .ok ((block, (Expr.lowerInto r.name s' r.body).1.fresh), t) ∧
      t.Agrees (Expr.lowerInto r.name s' r.body).2 ∧
      ∀ n, rhssOf block n = rhssOf (Expr.lowerInto r.name s' r.body).1.productions n := by
  obtain ⟨name, body, span⟩ := r
  obtain ⟨rfl, hbody⟩ := h
  cases hm : hasMarks p.rhs with
  | false =>
    obtain rfl : [p.rhs.map .ofName] = body :=
      Except.ok.inj ((Expr.ofNames_of_not_hasMarks hm none).symm.trans hbody)
    refine ⟨[p], s, ?_, ?_, fun n => ?_⟩
    · rw [lowerProduction, hm, Expr.lowerInto_ofName]
      rfl
    · rwa [Expr.lowerInto_ofName]
    · rw [Expr.lowerInto_ofName]
  | true =>
    obtain ⟨hx, ht⟩ := Expr.lowerInto_agrees hs p.lhs body
    rw [← hx]
    exact ⟨_, _, lowerProduction_of_ofNames s hm (Expr.ofNames_congr hbody _), ht,
      rhssOf_ownFirst p.lhs _⟩

/-- Productions are lowered like their rules, up to the order of what comes of them. -/
theorem lowerProductionsFrom_agrees {s s' : Supply} (hs : s.Agrees s') {ps : List Production}
    {rules : List Rule} (h : List.Forall₂ Production.Writes ps rules) :
    ∃ lowered, lowerProductionsFrom s ps = .ok (lowered, (lowerRules s' rules).1.fresh) ∧
      ∀ n, rhssOf lowered n = rhssOf (lowerRules s' rules).1.productions n := by
  induction h generalizing s s' with
  | nil => exact ⟨[], rfl, fun _ => rfl⟩
  | @cons p r ps rules hp _ ih =>
    obtain ⟨block, t, hblock, ht, hrhss⟩ := lowerProduction_agrees hs hp
    obtain ⟨blocks, hblocks, hrhss'⟩ := ih ht
    refine ⟨block ++ blocks, ?_, fun n => ?_⟩
    · rw [lowerProductionsFrom, hblock]
      simp only [hblocks]
      rfl
    · rw [rhssOf_append, hrhss, hrhss', lowerRules, Lowered.productions_append, rhssOf_append]

/-- Productions with the same right-hand sides of each name are the same up to their order. -/
theorem perm_of_rhssOf_eq {ps qs : List Production} (h : ∀ n, rhssOf ps n = rhssOf qs n) :
    ps.Perm qs := by
  have hcount : ∀ (p : Production) (rs : List Production),
      (rhssOf rs p.lhs).count p.rhs = rs.count p := by
    intro p rs
    induction rs with
    | nil => rfl
    | cons q rs ih =>
      rw [← List.singleton_append, rhssOf_append, List.count_append, List.count_append, ih]
      congr 1
      obtain ⟨lhs, rhs⟩ := p
      obtain ⟨lhs', rhs'⟩ := q
      by_cases hl : lhs' = lhs
      · by_cases hr : rhs' = rhs <;> simp [rhssOf, hl, hr]
      · simp [rhssOf, hl]
  exact List.perm_iff_count.2 fun p => by rw [← hcount, ← hcount, h]

namespace Grammar

variable {g g' : Grammar}

/-- The grammars differ at most in the order of their productions, and each name has its productions
in the same order. -/
structure SameUpToOrder (g g' : Grammar) : Prop extends SameTables g g' where
  catalog : g'.catalog = g.catalog
  productions : g'.productions.Perm g.productions
  productionsFor : ∀ n, g'.productionsFor n = g.productionsFor n
  director : g'.director = g.director
  conflicts : g'.conflicts = g.conflicts

/-- Grammars over the same catalog in which each name has the same right-hand sides. -/
theorem WellFormed.sameUpToOrder (h : g.WellFormed) (h' : g'.WellFormed)
    (hc : g'.catalog = g.catalog)
    (hr : ∀ n, rhssOf g'.productions n = rhssOf g.productions n) : g.SameUpToOrder g' := by
  have hperm := perm_of_rhssOf_eq hr
  have hsame := h.sameTables h' (by rw [hc]; simp) (by rw [hc]; simp) (by rw [hc])
    fun _ => hperm.mem_iff
  have halternatives : ∀ n, alternativesOf g'.productions n = alternativesOf g.productions n :=
    fun n => by rw [alternativesOf, alternativesOf, hr]
  have hdirector : ∀ a, g'.directorOf a = g.directorOf a := fun a => hsame.directorOf_eq rfl rfl
  refine ⟨hsame, hc, hperm, fun n => ?_, ?_, ?_⟩
  · rw [Grammar.productionsFor, Grammar.productionsFor, hc, funext hr]
  · simp only [h'.director_eq, h.director_eq, hc, halternatives, hdirector]
  · simp only [h'.conflicts_eq, h.conflicts_eq, hc, halternatives, hdirector]

end Grammar

section TwoWays

variable {ts : List Name} {ps : List Production} {d : Declaration} {b : Bnf}

theorem ruleNames_of_writes (h : List.Forall₂ Production.Writes ps d.rules) :
    d.ruleNames = ps.map (·.lhs) := by
  rw [Declaration.ruleNames]
  generalize d.rules = rules at h
  induction h with
  | nil => rfl
  | cons hp _ ih => rw [List.map_cons, List.map_cons, hp.1, ih]

theorem leaves_of_writes (h : List.Forall₂ Production.Writes ps d.rules) :
    d.leaves = ps.flatMap fun p => plainLeaves p.rhs := by
  rw [Declaration.leaves]
  generalize d.rules = rules at h
  induction h with
  | nil => rfl
  | cons hp _ ih => rw [List.flatMap_cons, List.flatMap_cons, hp.leaves_eq, ih]

theorem faultOf?_of_writes (h : List.Forall₂ Production.Writes ps d.rules) :
    Bnf.faultOf? d = none := by
  rw [Bnf.faultOf?]
  generalize d.rules = rules at h
  induction h with
  | nil => rfl
  | cons hp _ ih => rw [List.findSome?_cons, hp.fault?_eq, ih]

/-- If right-hand sides hold declared names only, the terminals that are collected are the tokens. -/
theorem terminals_of_writes (h : List.Forall₂ Production.Writes ps d.rules)
    (hb : Bnf.ofDeclaration d = .ok b)
    (hrhs : ∀ p ∈ ps, ∀ n ∈ p.rhs, isMark n = false → n ∈ d.tokens ∨ n ∈ d.ruleNames) :
    b.terminals = firstOccurrences d.tokens := by
  have hliterals : d.literals = [] := by
    rw [Declaration.literals, leaves_of_writes h, List.filterMap_eq_nil_iff]
    intro l hl
    obtain ⟨p, -, hl⟩ := List.mem_flatMap.1 hl
    obtain ⟨n, -, rfl⟩ := List.mem_map.1 hl
    rfl
  have hmem : ∀ n ∈ b.terminals, n ∈ d.tokens := by
    intro n hn
    rcases (Bnf.mem_terminals_iff hb).1 hn with hn | hn | ⟨hn, hnot⟩
    · exact hn
    · rw [hliterals] at hn
      exact absurd hn List.not_mem_nil
    · have hleaf := Declaration.mem_namesOf_leaves.2 (Or.inl hn)
      rw [leaves_of_writes h, mem_namesOf_flatMap] at hleaf
      obtain ⟨p, hp, hn⟩ := hleaf
      obtain ⟨hn, hmark⟩ := mem_namesOf_plainLeaves.1 hn
      refine (hrhs p hp n hn hmark).resolve_right fun hr => ?_
      exact hnot ((Bnf.mem_nonterminals_iff hb).2 (Or.inl hr))
  rw [Bnf.eq_ofLowered hb, Bnf.ofLowered] at hmem ⊢
  refine firstOccurrences_append_of_subset fun n hn => hmem n ?_
  exact mem_firstOccurrences.2 (List.mem_append_right _ hn)

/-- The non-terminals are the left-hand sides and the invented names. -/
theorem nonterminals_of_writes (h : List.Forall₂ Production.Writes ps d.rules)
    (hb : Bnf.ofDeclaration d = .ok b) :
    b.nonterminals = firstOccurrences (ps.map (·.lhs) ++ d.invented) := by
  rw [Bnf.eq_ofLowered hb, ← ruleNames_of_writes h]
  rfl

/-- On both ways the same names are taken. -/
theorem agrees_supplyOf (h : List.Forall₂ Production.Writes ps d.rules) :
    (Supply.ofTaken (d.tokens ++ firstOccurrences (ps.map (·.lhs)))).Agrees (Bnf.supplyOf d) := by
  refine ⟨fun n => ?_, fun p => by cases p <;> rfl⟩
  show n ∈ d.tokens ++ firstOccurrences (ps.map (·.lhs)) ↔ n ∈ d.ruleNames ++ d.tokens
  simp only [ruleNames_of_writes h, List.mem_append, mem_firstOccurrences, or_comm]

/-- What the two ways hand over to the checks. -/
theorem extended_of_writes (h : List.Forall₂ Production.Writes ps d.rules)
    (hb : Bnf.ofDeclaration d = .ok b) (start : Option Name) :
    ∃ lowered, Grammar.extended d.tokens (firstOccurrences (ps.map (·.lhs))) ps start =
        Grammar.plain d.tokens (firstOccurrences (ps.map (·.lhs)) ++ d.invented) lowered start ∧
      ∀ n, rhssOf lowered n = rhssOf b.productions n := by
  obtain ⟨lowered, hlowered, hr⟩ := lowerProductionsFrom_agrees (agrees_supplyOf h) h
  refine ⟨lowered, ?_, fun n => ?_⟩
  · rw [Grammar.extended, lowerProductions, hlowered]
    rfl
  · rw [hr, Bnf.eq_ofLowered hb]
    rfl

end TwoWays

namespace Grammar

/-- **The two ways agree.**  Let `ps` be productions with marks, the start symbol one of their
left-hand sides and not empty, and let everything be admissible if these left-hand sides are the
non-terminals.  Then grammars come of the productions and of the declaration that they write down,
and the two differ at most in the order of their productions. -/
theorem exists_sameUpToOrder {ts : List Name} {ps : List Production} {s : Name} (hs : s ≠ "")
    (h : Admissible ts (firstOccurrences (ps.map (·.lhs))) ps (some s)) :
    ∃ d b g g', Declaration.ofProductions ts ps s = .ok d ∧ Bnf.ofDeclaration d = .ok b ∧
      ofBnf b = .ok g ∧
      extended ts (firstOccurrences (ps.map (·.lhs))) ps (some s) = .ok g' ∧
      g.SameUpToOrder g' := by
  have hbalanced : ∀ p ∈ ps, Balanced p.rhs := fun p hp => by
    cases hm : hasMarks p.rhs with
    | false => exact balanced_of_not_hasMarks hm
    | true => exact h.balanced p hp hm
  obtain ⟨rules, hd, hwrites⟩ := exists_ofProductions hbalanced ts s
  generalize hdef : Declaration.mk ts rules (some s) = d at hd
  have hts : d.tokens = ts := by rw [← hdef]
  have hstart : d.startName = s := Declaration.startName_of_ne (by rw [← hdef]) hs
  have hwrites : List.Forall₂ Production.Writes ps d.rules := by rwa [← hdef]
  subst hts
  clear hdef
  obtain ⟨b, hb⟩ : ∃ b, Bnf.ofDeclaration d = .ok b := by
    rw [Bnf.ofDeclaration, faultOf?_of_writes hwrites]
    exact ⟨_, rfl⟩
  have hstart' : b.start = s := by rw [Bnf.eq_ofLowered hb, Bnf.ofLowered, hstart]
  have hterminals := terminals_of_writes hwrites hb (by
    rw [ruleNames_of_writes hwrites]
    simpa only [mem_firstOccurrences] using h.rhs_mem)
  have hnonterminals := nonterminals_of_writes hwrites hb
  obtain ⟨lowered, hlowered, hproductions⟩ := extended_of_writes hwrites hb (some s)
  -- the productions are accepted, and so is what the rules are lowered to
  obtain ⟨hnew, hend⟩ := invented_new ps (d.tokens ++ firstOccurrences (ps.map (·.lhs)))
  obtain ⟨g', hg'⟩ := exists_extended_iff.2
    (h.append (fun n hn ht => hnew n hn (List.mem_append_left _ ht)) hend)
  have hplain := hlowered.symm.trans hg'
  obtain ⟨g, hg⟩ : ∃ g, ofBnf b = .ok g := by
    rw [ofBnf, hstart']
    refine exists_plain_congr (fun n => ?_) (fun n => ?_)
      (fun p => (perm_of_rhssOf_eq hproductions).symm.mem_iff) ⟨g', hplain⟩
    · rw [hterminals, mem_firstOccurrences]
    · rw [hnonterminals, mem_firstOccurrences, List.mem_append, List.mem_append,
        mem_firstOccurrences]
  refine ⟨d, b, g, g', hd, hb, hg, hg',
    (wellFormed_of_plain hg).sameUpToOrder (wellFormed_of_plain hplain) ?_ fun n => ?_⟩
  · rw [eq_analyse_of_plain hplain, eq_analyse_of_plain hg]
    show Catalog.frozen _ _ _ = Catalog.frozen _ _ _
    rw [hterminals, hnonterminals, hstart', firstOccurrences_firstOccurrences_append,
      firstOccurrences_eq_self (nodup_firstOccurrences d.tokens),
      firstOccurrences_eq_self (nodup_firstOccurrences (_ ++ _))]
  · rw [eq_analyse_of_plain hplain, eq_analyse_of_plain hg]
    exact hproductions n

/-- A repetition and an option; here the invented productions stand behind those of their rule, and
there in front of them. -/
theorem exists_sameUpToOrder_repetition :
    let ps : List Production :=
      [⟨"S", ["a", (Mark.opening .curly).name, "b", (Mark.closing .curly).name]⟩, ⟨"S", ["T", "S"]⟩,
        ⟨"T", [(Mark.opening .square).name, "b", Mark.bar.name, "S", (Mark.closing .square).name]⟩]
    ∃ d b g g', Declaration.ofProductions ["a", "b"] ps "S" = .ok d ∧ Bnf.ofDeclaration d = .ok b ∧
      ofBnf b = .ok g ∧ extended ["a", "b"] ["S", "T"] ps (some "S") = .ok g' ∧
      g.SameUpToOrder g' ∧ g'.productions ≠ g.productions := by
  intro ps
  have hbalanced : ∀ p ∈ ps, hasMarks p.rhs = true → Balanced p.rhs := fun p hp _ => by
    rcases List.mem_cons.1 hp with rfl | hp
    · exact (exists_ofNames_iff none).1 ⟨_, rfl⟩
    · rcases List.mem_cons.1 hp with rfl | hp
      · exact (exists_ofNames_iff none).1 ⟨_, rfl⟩
      · rw [List.mem_singleton.1 hp]
        exact (exists_ofNames_iff none).1 ⟨_, rfl⟩
  obtain ⟨d, b, g, g', hd, hb, hg, hg', h⟩ := @exists_sameUpToOrder ["a", "b"] ps "S" (by decide)
    ⟨hbalanced, by decide, by decide, by decide, ⟨"S", by decide, rfl⟩, by decide, by decide⟩
  change extended ["a", "b"] ["S", "T"] ps (some "S") = .ok g' at hg'
  refine ⟨d, b, g, g', hd, hb, hg, hg', h, ?_⟩
  obtain rfl := Except.ok.inj hd
  obtain rfl := Except.ok.inj hb
  obtain rfl := Except.ok.inj hg
  obtain rfl := Except.ok.inj hg'
  decide

end Grammar

end Lookahead
