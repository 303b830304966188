import Lookahead.Proofs.Bracketing
import Lookahead.Proofs.Checks

/-!
# Questions are refused only for a reason

## 1. The reader

A list that is not balanced has a mismatch or leaves brackets open, and the reader reports this and
nothing else (`Expr.ofNames_eq_error_iff`).

## 2. Sequences

How a sequence is read depends on whether a mark in it is undeclared, be it next to marks that are
declared (`Grammar.readsExtended_iff`).  If none is, the leftmost undeclared name is reported.
Otherwise the brackets come first, declared marks among them, and then the leftmost undeclared name
that is no mark (`Grammar.Refuses`).  There is nothing else that can go wrong: an answer is read
from entries that are there.

## 3. Non-terminals

A question about a name is refused exactly if the name is no non-terminal, and it is refused with
that name (`Grammar.map_requireNonterminal_eq_error_iff`).
-/

namespace Lookahead

/-! ## 1. The reader -/

theorem Expr.ofNames_eq_error_iff {u : List Name} {lhs : Option Name} {e : GrammarError} :
    ofNames u lhs = .error e ↔
      (∃ b, Mismatches u b ∧ e = .unbalanced (Mark.closing b).name lhs) ∨
        ∃ b bs, LeavesOpen (b :: bs) u ∧ e = .unclosed (Mark.closing b).name lhs := by
  constructor
  · intro h
    obtain ⟨bs, hopen⟩ | ⟨b, hb⟩ := exists_leavesOpen_or_mismatches u
    · cases bs with
      | nil =>
        cases hopen with
        | nil hbalanced =>
          obtain ⟨body, hbody⟩ := (exists_ofNames_iff lhs).2 hbalanced
          rw [hbody] at h
          cases h
      | cons b bs =>
        rw [hopen.ofNames_eq lhs] at h
        exact Or.inr ⟨b, bs, hopen, (Except.error.inj h).symm⟩
    · rw [hb.ofNames_eq lhs] at h
      exact Or.inl ⟨b, hb, (Except.error.inj h).symm⟩
  · rintro (⟨b, hb, rfl⟩ | ⟨b, bs, hopen, rfl⟩)
    · exact hb.ofNames_eq lhs
    · exact hopen.ofNames_eq lhs

/-! ## 2. Sequences -/

namespace Catalog

variable {c : Catalog} {u : List Name} {e : GrammarError}

/-- Whether the name is neither a terminal nor a non-terminal. -/
def IsUndeclared (c : Catalog) (n : Name) : Prop := n ∉ c.terminals ∧ n ∉ c.nonterminals

instance (c : Catalog) (n : Name) : Decidable (c.IsUndeclared n) :=
  inferInstanceAs (Decidable (_ ∧ _))

theorem not_contains_iff {n : Name} : (! c.contains n) = true ↔ c.IsUndeclared n := by
  rw [Bool.not_eq_true', ← Bool.not_eq_true, contains_iff, not_or]
  rfl

/-- Of the names that are asked for, the leftmost undeclared one is reported. -/
theorem requireAll_eq_error_iff :
    c.requireAll u = .error e ↔ ∃ n, IsFirst c.IsUndeclared u n ∧ e = .unknownSymbol n := by
  simp only [← find?_eq_some_iff_isFirst (fun n => not_contains_iff (c := c) (n := n))]
  unfold requireAll
  split
  · rename_i n hn
    rw [Except.error.injEq]
    simp only [hn, Option.some.injEq]
    constructor
    · rintro rfl
      exact ⟨n, rfl, rfl⟩
    · rintro ⟨m, rfl, rfl⟩
      rfl
  · rename_i hnone
    simp [hnone]

/-- The same, if marks are passed over. -/
theorem requireAll_filter_eq_error_iff :
    c.requireAll (u.filter (! isMark ·)) = .error e ↔
      ∃ n, IsFirst (fun n => isMark n = false ∧ c.IsUndeclared n) u n ∧
        e = .unknownSymbol n := by
  have hplain : ∀ n, decide ((! isMark n) = true ∧ (! c.contains n) = true) = true ↔
      isMark n = false ∧ c.IsUndeclared n := fun n => by
    rw [decide_eq_true_eq, not_contains_iff, Bool.not_eq_true']
  rw [requireAll_eq_error_iff]
  simp only [← find?_eq_some_iff_isFirst (fun n => not_contains_iff (c := c) (n := n)),
    ← find?_eq_some_iff_isFirst hplain, List.find?_filter]

end Catalog

namespace Grammar

variable {g : Grammar} {u : List Name} {n : Name} {e : GrammarError}

/-- Whether some mark in the sequence is undeclared. -/
def HasOpenMark (g : Grammar) (u : List Name) : Prop :=
  ∃ n ∈ u, isMark n = true ∧ g.catalog.IsUndeclared n

instance (g : Grammar) (u : List Name) : Decidable (g.HasOpenMark u) :=
  inferInstanceAs (Decidable (∃ n ∈ u, _))

theorem readsExtended_iff : g.readsExtended u = true ↔ g.HasOpenMark u := by
  simp only [readsExtended, List.any_eq_true, Bool.and_eq_true, Catalog.not_contains_iff,
    HasOpenMark]

/-- For what a question about a sequence is refused. -/
inductive Refuses (g : Grammar) (u : List Name) : GrammarError → Prop
  /-- All marks are declared, and this is the leftmost name that is not. -/
  | unknownSymbol {n : Name} (hm : ¬ g.HasOpenMark u) (hn : IsFirst g.catalog.IsUndeclared u n) :
      Refuses g u (.unknownSymbol n)
  /-- Some mark is not declared, and this is the first closing bracket that does not match. -/
  | unbalanced {b : Bracket} (hm : g.HasOpenMark u) (hb : Mismatches u b) :
      Refuses g u (.unbalanced (Mark.closing b).name none)
  /-- Some mark is not declared, and this bracket is the innermost one that is left open. -/
  | unclosed {b : Bracket} {bs : List Bracket} (hm : g.HasOpenMark u)
      (hb : LeavesOpen (b :: bs) u) : Refuses g u (.unclosed (Mark.closing b).name none)
  /-- Some mark is not declared, the brackets match, and this is the leftmost name that is neither
  a mark nor declared. -/
  | unknownName {n : Name} (hm : g.HasOpenMark u) (hb : Balanced u)
      (hn : IsFirst (fun n => isMark n = false ∧ g.catalog.IsUndeclared n) u n) :
      Refuses g u (.unknownSymbol n)

theorem firstOf_eq_error_iff_of_not_hasOpenMark (hm : ¬ g.HasOpenMark u) :
    g.firstOf u = .error e ↔ g.catalog.requireAll u = .error e := by
  rw [firstOf, if_neg (readsExtended_iff.not.2 hm)]
  cases g.catalog.requireAll u <;> simp

theorem firstOf_eq_error_iff_of_hasOpenMark (hm : g.HasOpenMark u) :
    g.firstOf u = .error e ↔ Expr.ofNames u none = .error e ∨
      Balanced u ∧ g.catalog.requireAll (u.filter (! isMark ·)) = .error e := by
  rw [← exists_ofNames_iff none, firstOf, if_pos (readsExtended_iff.2 hm)]
  cases Expr.ofNames u none with
  | error f => simp
  | ok body => cases g.catalog.requireAll (u.filter (! isMark ·)) <;> simp

/-- A question about a sequence is refused for one of these reasons, and if there is one. -/
theorem firstOf_eq_error_iff : g.firstOf u = .error e ↔ g.Refuses u e := by
  by_cases hm : g.HasOpenMark u
  · rw [firstOf_eq_error_iff_of_hasOpenMark hm, Expr.ofNames_eq_error_iff,
      Catalog.requireAll_filter_eq_error_iff]
    constructor
    · rintro ((⟨b, hb, rfl⟩ | ⟨b, bs, hb, rfl⟩) | ⟨hb, n, hn, rfl⟩)
      · exact .unbalanced hm hb
      · exact .unclosed hm hb
      · exact .unknownName hm hb hn
    · intro h
      cases h with
      | unknownSymbol hm' _ => exact absurd hm hm'
      | unbalanced _ hb => exact Or.inl (Or.inl ⟨_, hb, rfl⟩)
      | unclosed _ hb => exact Or.inl (Or.inr ⟨_, _, hb, rfl⟩)
      | unknownName _ hb hn => exact Or.inr ⟨hb, _, hn, rfl⟩
  · rw [firstOf_eq_error_iff_of_not_hasOpenMark hm, Catalog.requireAll_eq_error_iff]
    constructor
    · rintro ⟨n, hn, rfl⟩
      exact .unknownSymbol hm hn
    · intro h
      cases h with
      | unknownSymbol _ hn => exact ⟨_, hn, rfl⟩
      | unbalanced hm' _ => exact absurd hm' hm
      | unclosed hm' _ => exact absurd hm' hm
      | unknownName hm' _ _ => exact absurd hm' hm

/-- A sequence that is read as an extended one is refused for its brackets exactly if they do not
match. -/
theorem exists_notationError_iff (hm : g.HasOpenMark u) :
    (∃ e, g.firstOf u = .error e ∧ e.label = "ExtendedNotationError") ↔ ¬ Balanced u := by
  constructor
  · rintro ⟨e, he, hlabel⟩ hb
    rcases (firstOf_eq_error_iff_of_hasOpenMark hm).1 he with hread | ⟨-, hnames⟩
    · obtain ⟨body, hbody⟩ := (exists_ofNames_iff none).2 hb
      rw [hbody] at hread
      cases hread
    · obtain ⟨n, -, rfl⟩ := Catalog.requireAll_eq_error_iff.1 hnames
      exact absurd hlabel (by simp [GrammarError.label])
  · intro hb
    cases hread : Expr.ofNames u none with
    | ok body => exact absurd ((exists_ofNames_iff none).1 ⟨body, hread⟩) hb
    | error e =>
      refine ⟨e, (firstOf_eq_error_iff_of_hasOpenMark hm).2 (Or.inl hread), ?_⟩
      obtain ⟨b, -, rfl⟩ | ⟨b, bs, -, rfl⟩ := Expr.ofNames_eq_error_iff.1 hread <;> rfl

/-! ## 3. Non-terminals -/

theorem map_requireNonterminal_eq_error_iff {α : Type} {f : Name → α} :
    (g.catalog.requireNonterminal n).map f = .error e ↔
      n ∉ g.catalog.nonterminals ∧ e = .unknownNonterminal n := by
  by_cases hn : n ∈ g.catalog.nonterminals
  · simp [Catalog.requireNonterminal_of_mem hn, Except.map, hn]
  · simp [Catalog.requireNonterminal_of_notMem hn, Except.map, hn, eq_comm]

/-- **Questions are refused only for a reason.**  In a constructed grammar, no question misses an
entry.  A question about a sequence is refused for the reasons listed and for no others; if some
mark in it is undeclared, it is refused for its brackets exactly if they do not match.  The
questions about a name are refused exactly if it is no non-terminal, and all of them with that
name. -/
theorem questions_decided (h : g.IsConstructed) :
    (∀ u, g.firstOf? u = (g.firstOf u).map some ∧
      (∀ e, g.firstOf u = .error e ↔ g.Refuses u e) ∧
      (g.HasOpenMark u → ((∃ e, g.firstOf u = .error e ∧ e.label = "ExtendedNotationError") ↔
        ¬ Balanced u))) ∧
    ∀ n, g.followSet? n = (g.followSet n).map some ∧
      g.directorSets? n = (g.directorSets n).map some ∧
      ∀ e, (g.followSet n = .error e ↔
          n ∉ g.catalog.nonterminals ∧ e = .unknownNonterminal n) ∧
        (g.directorSets n = .error e ↔
          n ∉ g.catalog.nonterminals ∧ e = .unknownNonterminal n) ∧
        (g.productionsFor n = .error e ↔
          n ∉ g.catalog.nonterminals ∧ e = .unknownNonterminal n) ∧
        (g.alternatives n = .error e ↔
          n ∉ g.catalog.nonterminals ∧ e = .unknownNonterminal n) := by
  have hg := h.wellFormed
  refine ⟨fun u => ⟨hg.firstOf?_eq u, fun e => firstOf_eq_error_iff, exists_notationError_iff⟩,
    fun n => ⟨hg.followSet?_eq n, hg.directorSets?_eq n, fun e => ?_⟩⟩
  exact ⟨map_requireNonterminal_eq_error_iff, map_requireNonterminal_eq_error_iff,
    map_requireNonterminal_eq_error_iff, map_requireNonterminal_eq_error_iff⟩

/-- The bar is declared and the brackets are not.  So the bar alone is a name like any other, and
between brackets it is a mark; what is undeclared is reported, unless the brackets do not match. -/
theorem firstOf_of_declaredBar :
    ∃ g, plain ["a", "\\|"] ["S"] [⟨"S", ["a", "\\|"]⟩] (some "S") = .ok g ∧
      g.firstOf ["\\|", "b"] = .error (.unknownSymbol "b") ∧
      g.firstOf ["\\(", "a", "\\|", "b", "\\)"] = .error (.unknownSymbol "b") ∧
      (∃ e, g.firstOf ["b", "\\(", "\\|"] = .error e ∧ e.label = "ExtendedNotationError") ∧
      g.followSet "a" = .error (.unknownNonterminal "a") := by
  have hg : plain ["a", "\\|"] ["S"] [⟨"S", ["a", "\\|"]⟩] (some "S") =
      .ok (analyse (.frozen ["a", "\\|"] ["S"] (some "S")) [⟨"S", ["a", "\\|"]⟩]) := rfl
  obtain ⟨hsequences, hnames⟩ := questions_decided ⟨_, _, _, _, Or.inl hg⟩
  refine ⟨_, hg, ?_, ?_, ?_, ?_⟩
  · obtain ⟨-, hrefused, -⟩ := hsequences ["\\|", "b"]
    exact (hrefused _).2 (.unknownSymbol (by decide) ⟨["\\|"], [], rfl, by decide, by decide⟩)
  · obtain ⟨-, hrefused, -⟩ := hsequences ["\\(", "a", "\\|", "b", "\\)"]
    have hbalanced : Balanced ["\\(", "a", "\\|", "b", "\\)"] :=
      (exists_ofNames_iff none).1 ⟨_, rfl⟩
    exact (hrefused _).2 (.unknownName (by decide) hbalanced
      ⟨["\\(", "a", "\\|"], ["\\)"], rfl, by decide, by decide⟩)
  · obtain ⟨-, -, hbrackets⟩ := hsequences ["b", "\\(", "\\|"]
    have hunbalanced : ¬ Balanced ["b", "\\(", "\\|"] := by
      intro h
      obtain ⟨e, he⟩ := (exists_ofNames_iff none).2 h
      cases he
    exact (hbrackets (by decide)).2 hunbalanced
  · exact (((hnames "a").2.2 _).1).2 ⟨by decide, rfl⟩

end Grammar

end Lookahead
