import Lookahead.Proofs.Construction
import Lookahead.Proofs.Conversation
import Lookahead.Proofs.Entries

/-!
# The checks of a construction, in their order

Several things may be wrong with what a grammar is to be made of, and then one of them is reported.

## 1. The first member

What is looked for in a list is the **first** member with a property: the leftmost undeclared name,
the first faulty production (`IsFirst`).

## 2. Faults

The catalog is checked in front of the productions, and the verdict on it decides
(`Catalog.freezeFault?_eq_some_iff`).  If nothing is wrong there, the first faulty production is
reported, for its left-hand side or else for its leftmost undeclared name (`PlainFault`).

## 3. Decision

So construction reports the fault that comes first, and it succeeds if there is none
(`Grammar.plain_eq_error_iff`).  A grammar is built again from its own parts, as its names are
without repetitions already (`Grammar.WellFormed.plain_eq`).
-/

namespace Lookahead

/-! ## 1. The first member -/

section First

variable {α β : Type} {l : List α} {a : α}

/-- Whether the member has the property, and none in front of it has. -/
def IsFirst (P : α → Prop) (l : List α) (a : α) : Prop :=
  ∃ before after, l = before ++ a :: after ∧ P a ∧ ∀ b ∈ before, ¬ P b

theorem find?_eq_some_iff_isFirst {p : α → Bool} {P : α → Prop} (hp : ∀ a, p a = true ↔ P a) :
    l.find? p = some a ↔ IsFirst P l a := by
  simp only [List.find?_eq_some_iff_append, IsFirst, ← hp, Bool.not_eq_true,
    Bool.not_eq_eq_eq_not, Bool.not_true]
  constructor
  · rintro ⟨ha, before, after, hl, hb⟩
    exact ⟨before, after, hl, ha, hb⟩
  · rintro ⟨before, after, hl, ha, hb⟩
    exact ⟨ha, before, after, hl, hb⟩

theorem findSome?_eq_some_iff_isFirst {f : α → Option β} {b : β} :
    l.findSome? f = some b ↔ ∃ a, IsFirst (fun a => ∃ b, f a = some b) l a ∧ f a = some b := by
  simp only [List.findSome?_eq_some_iff, IsFirst, ← Option.isSome_iff_exists, Bool.not_eq_true,
    Option.isSome_eq_false_iff, Option.isNone_iff_eq_none]
  constructor
  · rintro ⟨before, a, after, hl, ha, hb⟩
    exact ⟨a, ⟨before, after, hl, by rw [ha]; rfl, hb⟩, ha⟩
  · rintro ⟨a, ⟨before, after, hl, -, hb⟩, ha⟩
    exact ⟨before, a, after, hl, ha, hb⟩

end First

/-! ## 2. Faults -/

variable {ts ns : List Name} {ps : List Production} {start : Option Name} {p : Production}
  {e : GrammarError}

/-- The fault that is found in what a catalog is to be frozen with is the one of the verdict. -/
theorem Catalog.freezeFault?_eq_some_iff :
    freezeFault? ts ns start = some e ↔ FreezeVerdict ts ns start (.error e) := by
  refine ⟨freezeVerdict_of_freezeFault?, fun h => ?_⟩
  have hnone (hd : ∀ n ∈ ts, n ∉ ns) : ts.find? (· ∈ ns) = none := by simpa using hd
  cases h with
  | @ambiguousKind before after n ht hb hn =>
    have hfind : ts.find? (· ∈ ns) = some n :=
      (find?_eq_some_iff_isFirst (by simp)).2 ⟨before, after, ht, hn, hb⟩
    unfold freezeFault?
    rw [hfind]
  | reserved hd he =>
    unfold freezeFault?
    rw [hnone hd]
    simp only [if_pos he]
  | invalidStart hd ht hn hs =>
    unfold freezeFault?
    rw [hnone hd]
    simp only [if_neg (not_or.2 ⟨ht, hn⟩)]
    cases start with
    | none => rfl
    | some s => simp only [if_neg fun hmem => hs s hmem rfl]

/-- What is wrong with a production over some terminals and non-terminals. -/
inductive ProductionFault (ts ns : List Name) (p : Production) : GrammarError → Prop
  /-- The left-hand side is no non-terminal. -/
  | unknownLhs (hl : p.lhs ∉ ns) : ProductionFault ts ns p (.unknownLhs p)
  /-- The left-hand side is a non-terminal, and this is the leftmost name on the right that is
  neither. -/
  | undeclaredSymbol {n : Name} (hl : p.lhs ∈ ns)
      (hn : IsFirst (fun n => n ∉ ts ∧ n ∉ ns) p.rhs n) :
      ProductionFault ts ns p (.undeclaredSymbol p n)

theorem Catalog.productionFault?_eq_some_iff {c : Catalog} (hts : ∀ n, n ∈ c.terminals ↔ n ∈ ts)
    (hns : ∀ n, n ∈ c.nonterminals ↔ n ∈ ns) :
    c.productionFault? p = some e ↔ ProductionFault ts ns p e := by
  have hcontains : ∀ n, (! c.contains n) = true ↔ n ∉ ts ∧ n ∉ ns := fun n => by
    rw [Bool.not_eq_true', ← Bool.not_eq_true, Catalog.contains_iff, hts, hns, not_or]
  unfold productionFault?
  split
  · rename_i hl
    rw [isNonterminal_iff, hns] at hl
    simp only [Option.map_eq_some_iff, find?_eq_some_iff_isFirst hcontains]
    constructor
    · rintro ⟨n, hn, rfl⟩
      exact .undeclaredSymbol hl hn
    · intro h
      cases h with
      | unknownLhs hl' => exact absurd hl hl'
      | undeclaredSymbol _ hn => exact ⟨_, hn, rfl⟩
  · rename_i hl
    rw [isNonterminal_iff, hns] at hl
    rw [Option.some.injEq]
    constructor
    · rintro rfl
      exact .unknownLhs hl
    · intro h
      cases h with
      | unknownLhs _ => rfl
      | undeclaredSymbol hl' _ => exact absurd hl' hl

/-- What is reported of plain productions: what is wrong with the declared names and the start
symbol, or else what is wrong with the first faulty production. -/
inductive PlainFault (ts ns : List Name) (ps : List Production) (start : Option Name) :
    GrammarError → Prop
  | freeze {e : GrammarError} (h : Catalog.FreezeVerdict ts ns start (.error e)) :
      PlainFault ts ns ps start e
  | production {p : Production} {e : GrammarError} (hfit : Catalog.IsFit ts ns start)
      (hp : IsFirst (fun q => ∃ e, ProductionFault ts ns q e) ps p)
      (he : ProductionFault ts ns p e) : PlainFault ts ns ps start e

/-! ## 3. Decision -/

namespace Grammar

/-- Construction reports the fault that comes first. -/
theorem plain_eq_error_iff : plain ts ns ps start = .error e ↔ PlainFault ts ns ps start e := by
  cases hf : Catalog.freezeFault? ts ns start with
  | some f =>
    rw [plain, Catalog.freeze_of_fault rfl hf]
    constructor
    · intro h
      obtain rfl := Except.error.inj h
      exact .freeze (Catalog.freezeFault?_eq_some_iff.1 hf)
    · intro h
      cases h with
      | freeze h =>
        rw [← Catalog.freezeFault?_eq_some_iff, hf] at h
        exact congrArg Except.error (Option.some.inj h)
      | production hfit _ _ =>
        rw [Catalog.isFit_iff, hf] at hfit
        cases hfit
  | none =>
    have hps : ∀ p e, Catalog.productionFault?
        (.frozen (firstOccurrences ts) (firstOccurrences ns) start) p = some e ↔
      ProductionFault ts ns p e :=
      fun p e => Catalog.productionFault?_eq_some_iff (by simp) (by simp)
    have hproduction : (∃ p, IsFirst (fun q => ∃ e, ProductionFault ts ns q e) ps p ∧
        ProductionFault ts ns p e) ↔ PlainFault ts ns ps start e := by
      constructor
      · rintro ⟨p, hp, he⟩
        exact .production (Catalog.isFit_iff.2 hf) hp he
      · intro h
        cases h with
        | freeze h =>
          rw [← Catalog.freezeFault?_eq_some_iff, hf] at h
          cases h
        | production _ hp he => exact ⟨_, hp, he⟩
    rw [plain, Catalog.freeze_of_no_fault rfl hf, ← hproduction]
    simp only [← hps, ← findSome?_eq_some_iff_isFirst, Catalog.checkProductions]
    cases List.findSome? _ ps <;> simp [Except.map]

/-- A grammar is built again from its own parts. -/
theorem WellFormed.plain_eq {g : Grammar} (h : g.WellFormed) :
    plain g.catalog.terminals g.catalog.nonterminals g.productions g.catalog.start = .ok g := by
  obtain ⟨s, hs⟩ := h.valid.exists_start h.isFrozen
  obtain ⟨g', hg'⟩ : ∃ g', plain g.catalog.terminals g.catalog.nonterminals g.productions
      g.catalog.start = .ok g' :=
    exists_plain_iff.2 ⟨⟨h.valid.disjoint, h.valid.endMarker_notMem_terminals,
      h.valid.endMarker_notMem_nonterminals, s, h.valid.start_mem s hs, hs⟩, h.declares⟩
  rw [hg', eq_analyse_of_plain hg', firstOccurrences_eq_self h.valid.nodup_terminals,
    firstOccurrences_eq_self h.valid.nodup_nonterminals, ← Catalog.eq_frozen h.isFrozen,
    ← h.tables]

/-- **The checks, in their order.**  A grammar comes of plain productions exactly if the kinds are
disjoint and without the end marker, the start symbol is a non-terminal, and the productions are
over the declared names.  Otherwise the fault that comes first is reported, and there is no other
way to fail: no look-up misses on the way.  A grammar that is built again from its own names,
productions and start symbol is the same grammar. -/
theorem plain_decided (ts ns : List Name) (ps : List Production) (start : Option Name) :
    ((∃ g, plain ts ns ps start = .ok g) ↔ Catalog.IsFit ts ns start ∧
      ∀ p ∈ ps, p.lhs ∈ ns ∧ ∀ n ∈ p.rhs, n ∈ ts ∨ n ∈ ns) ∧
    (∀ e, plain ts ns ps start = .error e ↔ PlainFault ts ns ps start e) ∧
    plain? ts ns ps start = (plain ts ns ps start).map some ∧
    ∀ g, plain ts ns ps start = .ok g → plain g.catalog.terminals g.catalog.nonterminals
      g.productions g.catalog.start = .ok g := by
  refine ⟨?_, fun e => plain_eq_error_iff, plain?_eq ts ns ps start,
    fun g hg => (wellFormed_of_plain hg).plain_eq⟩
  rw [exists_plain_iff, Catalog.isFit_iff, Catalog.freezeFault?_eq_none_iff]

/-- The second production is the first faulty one, and its left-hand side comes before the name on
its right.  Without it and the third one, a grammar comes of the rest. -/
theorem plain_of_faultyProductions :
    plain ["a", "a"] ["S"] [⟨"S", ["a"]⟩, ⟨"a", ["b"]⟩, ⟨"S", ["c"]⟩] (some "S") =
        .error (.unknownLhs ⟨"a", ["b"]⟩) ∧
      ∃ g, plain ["a", "a"] ["S"] [⟨"S", ["a"]⟩] (some "S") = .ok g ∧
        plain g.catalog.terminals g.catalog.nonterminals g.productions g.catalog.start = .ok g := by
  have hfit : Catalog.IsFit ["a", "a"] ["S"] (some "S") :=
    ⟨by decide, by decide, by decide, "S", by decide, rfl⟩
  constructor
  · have hfault : ProductionFault ["a", "a"] ["S"] ⟨"a", ["b"]⟩ (.unknownLhs ⟨"a", ["b"]⟩) :=
      .unknownLhs (by decide)
    have hsound : ∀ q ∈ [(⟨"S", ["a"]⟩ : Production)],
        ¬ ∃ e, ProductionFault ["a", "a"] ["S"] q e := by
      intro q hq ⟨e, he⟩
      rw [List.mem_singleton.1 hq] at he
      cases he with
      | unknownLhs hl => exact absurd hl (by decide)
      | undeclaredSymbol _ hn =>
        obtain ⟨before, after, hrhs, ⟨hts, -⟩, -⟩ := hn
        have hmem : _ ∈ (["a"] : List Name) := hrhs ▸ List.mem_append_right before List.mem_cons_self
        rw [List.mem_singleton.1 hmem] at hts
        exact absurd hts (by decide)
    obtain ⟨-, herror, -⟩ := plain_decided ["a", "a"] ["S"]
      [⟨"S", ["a"]⟩, ⟨"a", ["b"]⟩, ⟨"S", ["c"]⟩] (some "S")
    exact (herror _).2 (.production hfit ⟨[⟨"S", ["a"]⟩], _, rfl, ⟨_, hfault⟩, hsound⟩ hfault)
  · obtain ⟨hok, -, -, hagain⟩ := plain_decided ["a", "a"] ["S"] [⟨"S", ["a"]⟩] (some "S")
    obtain ⟨g, hg⟩ := hok.2 ⟨hfit, by decide⟩
    exact ⟨g, hg, hagain g hg⟩

end Grammar

end Lookahead
