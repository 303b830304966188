import Lookahead.Grammar.WellFormed
import Lookahead.Proofs.Reading

/-!
# What construction accepts

## 1. What a grammar may be made of

Terminals, non-terminals, productions and a start symbol are **admissible** if they are declared as
they should be: the kinds are disjoint, the end marker is of neither, brackets match wherever a
right-hand side uses marks, and everything that is mentioned is declared, marks in right-hand sides
excepted (`Grammar.Admissible`).

## 2. Plain productions

The checks at the door ask just that of plain productions, where a mark is a name like any other
(`Grammar.exists_plain_iff`).

## 3. Productions with marks

Here the checks are made behind the lowering, so they see the invented non-terminals along with the
declared ones.  An invented name is none of the declared names, but it may well be a name that was
mentioned without a declaration; such a name then passes for declared.  So construction accepts what
is admissible when the invented names are counted as declared (`Grammar.exists_extended_iff`).  As
long as nothing that is mentioned is invented, this is just what is admissible
(`Grammar.admissible_append_iff`); otherwise it can be more.
-/

namespace Lookahead

/-- The end marker is never invented. -/
theorem Supply.Invents.endMarker_notMem {s s' : Supply} {ns : List Name} (h : s.Invents ns s') :
    endMarker ∉ ns := by
  intro hn
  obtain ⟨p, k, hp⟩ := h.numbered endMarker hn
  exact p.numbered_ne_endMarker k hp.symm

/-- The productions of a piece are over some names, its invented ones among them, exactly if the
names that it was lowered under and those in its leaves are. -/
theorem Lowered.Spells.declared_iff {own : List Name} {ls : List Leaf} {s s' : Supply} {x : Lowered}
    (h : x.Spells own ls s s') (hx : x.names = []) (ts : List Name)
    {ns : List Name} (hfresh : ∀ n ∈ x.fresh, n ∈ ns) :
    (∀ p ∈ x.productions, p.lhs ∈ ns ∧ ∀ n ∈ p.rhs, n ∈ ts ∨ n ∈ ns) ↔
      (∀ n ∈ own, n ∈ ns) ∧ ∀ n ∈ namesOf ls, n ∈ ts ∨ n ∈ ns := by
  constructor
  · intro hp
    refine ⟨fun n hn => ?_, fun n hn => ?_⟩
    · obtain ⟨p, hmem, rfl⟩ := h.exists_lhs n hn
      exact (hp p hmem).1
    · obtain ⟨p, hmem, hn⟩ := h.exists_rhs hx hn
      exact (hp p hmem).2 n hn
  · rintro ⟨hown, hleaves⟩ p hp
    refine ⟨?_, fun n hn => ?_⟩
    · exact (h.lhs_mem p hp).elim (hown p.lhs) (hfresh p.lhs)
    · exact (h.rhs_mem p hp n hn).elim (hleaves n) fun hn => Or.inr (hfresh n hn)

namespace Grammar

variable {ts ns : List Name} {ps : List Production} {start : Option Name}

/-! ## 1. What a grammar may be made of -/

/-- The kinds are disjoint and without the end marker, the brackets in right-hand sides that use
marks match, and start symbol, left-hand sides and the names in right-hand sides are declared. -/
structure Admissible (ts ns : List Name) (ps : List Production) (start : Option Name) : Prop where
  balanced : ∀ p ∈ ps, hasMarks p.rhs = true → Balanced p.rhs
  disjoint : ∀ n ∈ ts, n ∉ ns
  endMarker_notMem_terminals : endMarker ∉ ts
  endMarker_notMem_nonterminals : endMarker ∉ ns
  start_mem : ∃ s ∈ ns, start = some s
  lhs_mem : ∀ p ∈ ps, p.lhs ∈ ns
  rhs_mem : ∀ p ∈ ps, ∀ n ∈ p.rhs, isMark n = false → n ∈ ts ∨ n ∈ ns

/-- Whether productions and start symbol mention the name. -/
def Mentions (ps : List Production) (start : Option Name) (n : Name) : Prop :=
  start = some n ∨ ∃ p ∈ ps, n ∈ p.lhs :: p.rhs

instance (ps : List Production) (start : Option Name) (n : Name) :
    Decidable (Mentions ps start n) := inferInstanceAs (Decidable (_ ∨ _))

/-- More non-terminals do no harm, unless they are terminals or the end marker. -/
theorem Admissible.append {extra : List Name} (h : Admissible ts ns ps start)
    (hts : ∀ n ∈ extra, n ∉ ts) (hend : endMarker ∉ extra) :
    Admissible ts (ns ++ extra) ps start := by
  obtain ⟨s, hs, rfl⟩ := h.start_mem
  refine ⟨h.balanced, fun n hn hn' => ?_, h.endMarker_notMem_terminals, fun he => ?_,
    ⟨s, List.mem_append_left _ hs, rfl⟩, fun p hp => List.mem_append_left _ (h.lhs_mem p hp),
    fun p hp n hn hmark => (h.rhs_mem p hp n hn hmark).imp_right (List.mem_append_left _)⟩
  · exact (List.mem_append.1 hn').elim (h.disjoint n hn) fun he => hts n he hn
  · exact (List.mem_append.1 he).elim h.endMarker_notMem_nonterminals hend

/-- More non-terminals that nothing mentions make no difference. -/
theorem admissible_append_iff {extra : List Name} (hts : ∀ n ∈ extra, n ∉ ts)
    (hend : endMarker ∉ extra) (hm : ∀ n ∈ extra, ¬ Mentions ps start n) :
    Admissible ts (ns ++ extra) ps start ↔ Admissible ts ns ps start := by
  have hmem : ∀ {n}, Mentions ps start n → (n ∈ ns ++ extra ↔ n ∈ ns) := fun hn => by
    rw [List.mem_append, or_iff_left fun he => hm _ he hn]
  refine ⟨fun h => ?_, fun h => h.append hts hend⟩
  obtain ⟨s, hs, rfl⟩ := h.start_mem
  refine ⟨h.balanced, fun n hn hn' => h.disjoint n hn (List.mem_append_left _ hn'),
    h.endMarker_notMem_terminals,
    fun he => h.endMarker_notMem_nonterminals (List.mem_append_left _ he),
    ⟨s, (hmem (Or.inl rfl)).1 hs, rfl⟩, fun p hp => ?_, fun p hp n hn hmark => ?_⟩
  · exact (hmem (Or.inr ⟨p, hp, List.mem_cons_self⟩)).1 (h.lhs_mem p hp)
  · exact (h.rhs_mem p hp n hn hmark).imp_right
      (hmem (Or.inr ⟨p, hp, List.mem_cons_of_mem _ hn⟩)).1

/-! ## 2. Plain productions -/

/-- Plain productions are accepted exactly if the kinds are disjoint and without the end marker, and
start symbol, left-hand sides and right-hand sides are declared. -/
theorem exists_plain_iff : (∃ g, plain ts ns ps start = .ok g) ↔
    ((∀ n ∈ ts, n ∉ ns) ∧ endMarker ∉ ts ∧ endMarker ∉ ns ∧ ∃ s ∈ ns, start = some s) ∧
      ∀ p ∈ ps, p.lhs ∈ ns ∧ ∀ n ∈ p.rhs, n ∈ ts ∨ n ∈ ns := by
  rw [← Catalog.freezeFault?_eq_none_iff]
  cases hf : Catalog.freezeFault? ts ns start with
  | some e =>
    rw [plain, Catalog.freeze_of_fault rfl hf]
    simp
  | none =>
    rw [plain, Catalog.freeze_of_no_fault rfl hf]
    have hcheck := @Catalog.checkProductions_eq_ok_iff
      (.frozen (firstOccurrences ts) (firstOccurrences ns) start) ps
    simp only [Catalog.Declares, Catalog.frozen_nonterminals, Catalog.frozen_terminals,
      mem_firstOccurrences] at hcheck
    simp only [true_and]
    constructor
    · rintro ⟨g, hg⟩
      cases hps : Catalog.checkProductions
          (.frozen (firstOccurrences ts) (firstOccurrences ns) start) ps with
      | error e =>
        simp only [hps] at hg
        cases hg
      | ok qs => exact (hcheck.1 hps).2
    · intro hd
      rw [hcheck.2 ⟨rfl, hd⟩]
      exact ⟨_, rfl⟩

/-- A grammar of plain productions has the declared names, without repetitions, and the
productions. -/
theorem eq_analyse_of_plain {g : Grammar} (h : plain ts ns ps start = .ok g) :
    g = analyse (.frozen (firstOccurrences ts) (firstOccurrences ns) start) ps := by
  obtain ⟨hno, -⟩ := exists_plain_iff.1 ⟨g, h⟩
  rw [plain, Catalog.freeze_of_no_fault rfl (Catalog.freezeFault?_eq_none_iff.2 hno)] at h
  cases hps : Catalog.checkProductions
      (.frozen (firstOccurrences ts) (firstOccurrences ns) start) ps with
  | error e =>
    simp only [hps] at h
    cases h
  | ok qs =>
    obtain ⟨rfl, -⟩ := Catalog.checkProductions_eq_ok_iff.1 hps
    simp only [hps] at h
    exact (Except.ok.inj h).symm

/-! ## 3. Productions with marks -/

/-- The non-terminals that are invented when productions are lowered; none if they cannot be. -/
def invented (ps : List Production) (taken : List Name) : List Name :=
  match lowerProductions ps taken with
  | .error _ => []
  | .ok (_, fresh) => fresh

/-- Construction accepts exactly what is admissible when the invented names are counted as
declared. -/
theorem exists_extended_iff : (∃ g, extended ts ns ps start = .ok g) ↔
    Admissible ts (ns ++ invented ps (ts ++ ns)) ps start := by
  by_cases hb : ∀ p ∈ ps, hasMarks p.rhs = true → Balanced p.rhs
  · obtain ⟨lowered, fresh, s', hl, hx⟩ := exists_lowerProductionsFrom (.ofTaken (ts ++ ns)) hb
    have hl' : lowerProductions ps (ts ++ ns) = .ok (lowered, fresh) := hl
    have hdeclared := hx.declared_iff rfl ts fun n hn => List.mem_append_right ns hn
    rw [List.forall_mem_map] at hdeclared
    simp only [extended, invented, hl', exists_plain_iff, hdeclared, mem_namesOf_flatMap]
    constructor
    · rintro ⟨⟨hd, ht, hn, hs⟩, hlhs, hrhs⟩
      exact ⟨hb, hd, ht, hn, hs, hlhs,
        fun p hp n hn hm => hrhs n ⟨p, hp, mem_namesOf_plainLeaves.2 ⟨hn, hm⟩⟩⟩
    · intro h
      refine ⟨⟨h.disjoint, h.endMarker_notMem_terminals, h.endMarker_notMem_nonterminals,
        h.start_mem⟩, h.lhs_mem, ?_⟩
      rintro n ⟨p, hp, hn⟩
      obtain ⟨hn, hm⟩ := mem_namesOf_plainLeaves.1 hn
      exact h.rhs_mem p hp n hn hm
  · refine iff_of_false ?_ fun h => hb h.balanced
    rintro ⟨g, hg⟩
    cases hl : lowerProductions ps (ts ++ ns) with
    | error e =>
      rw [extended, hl] at hg
      cases hg
    | ok r => exact hb (exists_lowerProductionsFrom_iff.1 ⟨r, hl⟩)

/-- Invented names are new, and the end marker is none of them. -/
theorem invented_new (ps : List Production) (taken : List Name) :
    (∀ n ∈ invented ps taken, n ∉ taken) ∧ endMarker ∉ invented ps taken := by
  cases hl : lowerProductions ps taken with
  | error e => simp [invented, hl]
  | ok r =>
    have hb := exists_lowerProductionsFrom_iff.1 ⟨r, hl⟩
    obtain ⟨lowered, fresh, s', hl', hx⟩ := exists_lowerProductionsFrom (.ofTaken taken) hb
    obtain rfl : (lowered, fresh) = r := Except.ok.inj (hl'.symm.trans hl)
    simp only [invented, hl]
    exact ⟨hx.notMem, hx.endMarker_notMem⟩

/-- **What construction accepts.**  As long as no name that is mentioned is invented, construction
accepts exactly what is admissible, and reports a fault in all other cases. -/
theorem exists_extended_iff_admissible
    (h : ∀ n ∈ invented ps (ts ++ ns), ¬ Mentions ps start n) :
    ((∃ g, extended ts ns ps start = .ok g) ↔ Admissible ts ns ps start) ∧
      ((∃ e, extended ts ns ps start = .error e) ↔ ¬ Admissible ts ns ps start) := by
  obtain ⟨hnew, hend⟩ := invented_new ps (ts ++ ns)
  have hok : (∃ g, extended ts ns ps start = .ok g) ↔ Admissible ts ns ps start := by
    rw [exists_extended_iff]
    exact admissible_append_iff (fun n hn ht => hnew n hn (List.mem_append_left _ ht)) hend h
  refine ⟨hok, ?_⟩
  rw [← hok]
  cases extended ts ns ps start <;> simp

/-- A repetition beside a plain production; what is invented for it is mentioned nowhere else. -/
theorem exists_extended_repetition :
    ∃ g, extended ["a", "b"] ["S"]
      [⟨"S", [(Mark.opening .curly).name, "a", Mark.bar.name, "b", (Mark.closing .curly).name]⟩,
        ⟨"S", ["b", "S"]⟩] (some "S") = .ok g := by
  refine (exists_extended_iff_admissible ?_).1.2 ⟨?_, ?_, ?_, ?_, ?_, ?_, ?_⟩
  · decide
  · intro p hp _
    rcases List.mem_cons.1 hp with rfl | hp
    · exact (exists_ofNames_iff none).1 ⟨_, rfl⟩
    · rw [List.mem_singleton.1 hp]
      exact (exists_ofNames_iff none).1 ⟨_, rfl⟩
  · decide
  · decide
  · decide
  · exact ⟨"S", by decide, rfl⟩
  · decide
  · decide

/-- The group invents the name that the second production mentions, so construction accepts what is
not admissible. -/
theorem exists_extended_of_mentioned :
    let ps : List Production :=
      [⟨"S", [(Mark.opening .round).name, "a", Mark.bar.name, "b", (Mark.closing .round).name]⟩,
        ⟨"S", ["__grp1"]⟩]
    (∃ g, extended ["a", "b"] ["S"] ps (some "S") = .ok g) ∧
      ¬ Admissible ["a", "b"] ["S"] ps (some "S") := by
  intro ps
  refine ⟨⟨_, rfl⟩, fun h => ?_⟩
  have hmem := h.rhs_mem ⟨"S", ["__grp1"]⟩ (by decide) "__grp1" (by decide) (by decide)
  exact absurd hmem (by decide)

end Grammar

end Lookahead
