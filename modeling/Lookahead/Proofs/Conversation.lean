import Lookahead.Grammar.WellFormed
import Mathlib.Data.List.Nodup

/-!
# Conversations with a catalog

Whatever a new catalog is asked, in whatever order, and however much of it is refused, there is one
request at most that makes a difference: the first `freeze` that nothing is wrong with.  In front of
it the catalog is the open one, behind it the catalog is what this request says.

## 1. What can be wrong with a `freeze`

A `freeze` is **fit** if its two kinds are disjoint, the end marker is of neither, and the start
symbol is a non-terminal.  Otherwise it is refused, for the first reason in this order.
`FreezeVerdict` lists the four cases, which exclude each other.

## 2. One request

A frozen catalog is not changed by anything, and an open one only by a fit `freeze`.  In particular
a request that is refused changes nothing (`serve_of_error`).

## 3. All requests

By induction over the requests, every state is valid (`Valid.run`), and a frozen catalog stays as it
is (`run_of_isFrozen`).  So a run from the open catalog can be cut at the first fit `freeze`, if
there is one (`run_of_isFit`).

## 4. Looking names up

A name is looked up among the symbols that are kept beside the two lists.  No symbol hides another
one, so in a valid catalog all views of it agree (`Valid.viewsAgree`).
-/

namespace Lookahead

namespace Catalog

variable {c : Catalog} {ts ns : List Name} {start : Option Name}

/-! ## 1. What can be wrong with a `freeze` -/

/-- Whether an open catalog can be frozen with the names: the kinds are disjoint and without the end
marker, and the start symbol is a non-terminal. -/
structure IsFit (ts ns : List Name) (start : Option Name) : Prop where
  disjoint : ∀ n ∈ ts, n ∉ ns
  endMarker_notMem_terminals : endMarker ∉ ts
  endMarker_notMem_nonterminals : endMarker ∉ ns
  start_mem : ∃ s ∈ ns, start = some s

theorem isFit_iff : IsFit ts ns start ↔ freezeFault? ts ns start = none := by
  rw [freezeFault?_eq_none_iff]
  exact ⟨fun ⟨hd, ht, hn, hs⟩ => ⟨hd, ht, hn, hs⟩, fun ⟨hd, ht, hn, hs⟩ => ⟨hd, ht, hn, hs⟩⟩

/-- What an open catalog answers to a `freeze`. -/
inductive FreezeVerdict (ts ns : List Name) (start : Option Name) :
    Except GrammarError Reply → Prop
  /-- Some terminal is a non-terminal as well, and this one is the first. -/
  | ambiguousKind {before after : List Name} {n : Name} (ht : ts = before ++ n :: after)
      (hb : ∀ m ∈ before, m ∉ ns) (hn : n ∈ ns) :
      FreezeVerdict ts ns start (.error (.ambiguousKind n))
  /-- The kinds are disjoint, and the end marker is of one of them. -/
  | reserved (hd : ∀ n ∈ ts, n ∉ ns) (he : endMarker ∈ ts ∨ endMarker ∈ ns) :
      FreezeVerdict ts ns start (.error .reserved)
  /-- The kinds are as they should be, and the start symbol is no non-terminal. -/
  | invalidStart (hd : ∀ n ∈ ts, n ∉ ns) (ht : endMarker ∉ ts) (hn : endMarker ∉ ns)
      (hs : ∀ s ∈ ns, start ≠ some s) :
      FreezeVerdict ts ns start (.error (.invalidStart start))
  /-- Nothing is wrong. -/
  | done (h : IsFit ts ns start) : FreezeVerdict ts ns start (.ok .done)

/-- The fault that is found is the one of the verdict. -/
theorem freezeVerdict_of_freezeFault? {e : GrammarError} (h : freezeFault? ts ns start = some e) :
    FreezeVerdict ts ns start (.error e) := by
  unfold freezeFault? at h
  split at h
  · rename_i n hn
    obtain rfl := Option.some.inj h
    obtain ⟨hmem, before, after, ht, hb⟩ := List.find?_eq_some_iff_append.1 hn
    exact .ambiguousKind ht (by simpa using hb) (by simpa using hmem)
  · rename_i hnone
    have hd : ∀ n ∈ ts, n ∉ ns := by simpa using hnone
    split at h
    · rename_i he
      obtain rfl := Option.some.inj h
      exact .reserved hd he
    · rename_i he
      rw [not_or] at he
      cases start with
      | none =>
        obtain rfl := Option.some.inj h
        exact .invalidStart hd he.1 he.2 (by simp)
      | some s =>
        by_cases hs : s ∈ ns
        · simp [hs] at h
        · obtain rfl : GrammarError.invalidStart (some s) = e := by simpa [hs] using h
          refine .invalidStart hd he.1 he.2 fun m hm he => hs ?_
          rwa [Option.some.inj he]

/-! ## 2. One request -/

/-- Whether a request is a `freeze` that nothing is wrong with. -/
inductive Request.IsFit : Request → Prop
  | freeze {ts ns : List Name} {start : Option Name} (h : Catalog.IsFit ts ns start) :
      IsFit (.freeze ts ns start)

theorem serve_freeze_of_isFit (hc : c.isFrozen = false) (h : IsFit ts ns start) :
    c.serve (.freeze ts ns start) =
      (frozen (firstOccurrences ts) (firstOccurrences ns) start, .ok .done) := by
  simp [serve, freeze_of_no_fault hc (isFit_iff.1 h)]

theorem serve_freeze_of_fault (hc : c.isFrozen = false) {e : GrammarError}
    (h : freezeFault? ts ns start = some e) : c.serve (.freeze ts ns start) = (c, .error e) := by
  simp [serve, freeze_of_fault hc h]

/-- Nothing changes a frozen catalog. -/
theorem serve_of_isFrozen (hc : c.isFrozen = true) (r : Request) : (c.serve r).1 = c := by
  cases r with
  | freeze ts ns start => simp [serve, freeze_of_isFrozen hc]
  | _ => rfl

/-- An open catalog is changed by a fit `freeze` only. -/
theorem serve_of_not_isFit (hc : c.isFrozen = false) {r : Request} (hr : ¬ r.IsFit) :
    (c.serve r).1 = c := by
  cases r with
  | freeze ts ns start =>
    cases hf : freezeFault? ts ns start with
    | none => exact absurd (.freeze (isFit_iff.2 hf)) hr
    | some e => rw [serve_freeze_of_fault hc hf]
  | _ => rfl

/-- A request that is refused changes nothing. -/
theorem serve_of_error {r : Request} {e : GrammarError} (h : (c.serve r).2 = .error e) :
    (c.serve r).1 = c := by
  cases hc : c.isFrozen with
  | true => exact serve_of_isFrozen hc r
  | false =>
    refine serve_of_not_isFit hc fun hr => ?_
    obtain ⟨hfit⟩ := hr
    rw [serve_freeze_of_isFit hc hfit] at h
    cases h

/-- What an open catalog answers to a `freeze` is the verdict on it. -/
theorem freezeVerdict_serve (hc : c.isFrozen = false) (ts ns : List Name) (start : Option Name) :
    FreezeVerdict ts ns start (c.serve (.freeze ts ns start)).2 := by
  cases hf : freezeFault? ts ns start with
  | none =>
    rw [serve_freeze_of_isFit hc (isFit_iff.2 hf)]
    exact .done (isFit_iff.2 hf)
  | some e =>
    rw [serve_freeze_of_fault hc hf]
    exact freezeVerdict_of_freezeFault? hf

/-- Every request leads from valid catalogs to valid catalogs. -/
theorem Valid.serve (hv : c.Valid) (r : Request) : (c.serve r).1.Valid := by
  cases hc : c.isFrozen with
  | true => rwa [serve_of_isFrozen hc]
  | false =>
    by_cases hr : r.IsFit
    · obtain ⟨hfit⟩ := hr
      rw [serve_freeze_of_isFit hc hfit]
      exact valid_of_freeze hv (freeze_of_no_fault hc (isFit_iff.1 hfit))
    · rwa [serve_of_not_isFit hc hr]

/-! ## 3. All requests -/

theorem run_cons (c : Catalog) (r : Request) (rs : List Request) :
    c.run (r :: rs) = (c.serve r).1.run rs := rfl

theorem run_append (c : Catalog) (rs rs' : List Request) :
    c.run (rs ++ rs') = (c.run rs).run rs' := List.foldl_append

theorem Valid.run (hv : c.Valid) (rs : List Request) : (c.run rs).Valid := by
  induction rs generalizing c with
  | nil => exact hv
  | cons r rs ih => exact ih (hv.serve r)

theorem run_of_isFrozen (hc : c.isFrozen = true) (rs : List Request) : c.run rs = c := by
  induction rs with
  | nil => rfl
  | cons r rs ih => rw [run_cons, serve_of_isFrozen hc, ih]

theorem run_of_forall_not_isFit (hc : c.isFrozen = false) {rs : List Request}
    (hrs : ∀ r ∈ rs, ¬ r.IsFit) : c.run rs = c := by
  induction rs with
  | nil => rfl
  | cons r rs ih =>
    rw [List.forall_mem_cons] at hrs
    rw [run_cons, serve_of_not_isFit hc hrs.1, ih hrs.2]

/-- A fit request freezes an open catalog for the rest of the run. -/
theorem run_of_isFit (hc : c.isFrozen = false) {before : List Request}
    (hb : ∀ r ∈ before, ¬ r.IsFit) (h : IsFit ts ns start) (after : List Request) :
    c.run (before ++ .freeze ts ns start :: after) =
      frozen (firstOccurrences ts) (firstOccurrences ns) start := by
  rw [run_append, run_of_forall_not_isFit hc hb, run_cons, serve_freeze_of_isFit hc h]
  obtain ⟨s, -, rfl⟩ := h.start_mem
  exact run_of_isFrozen rfl after

/-- A run has no fit `freeze`, or a first one. -/
theorem forall_not_isFit_or_exists_first (rs : List Request) : (∀ r ∈ rs, ¬ r.IsFit) ∨
    ∃ before ts ns start after, rs = before ++ .freeze ts ns start :: after ∧
      (∀ r ∈ before, ¬ r.IsFit) ∧ IsFit ts ns start := by
  induction rs with
  | nil => exact Or.inl (by simp)
  | cons r rs ih =>
    by_cases hr : r.IsFit
    · obtain ⟨hfit⟩ := hr
      exact Or.inr ⟨[], _, _, _, rs, rfl, by simp, hfit⟩
    · rcases ih with hnone | ⟨before, ts, ns, start, after, rfl, hb, hfit⟩
      · exact Or.inl (List.forall_mem_cons.2 ⟨hr, hnone⟩)
      · exact Or.inr ⟨r :: before, ts, ns, start, after, rfl, List.forall_mem_cons.2 ⟨hr, hb⟩, hfit⟩

/-! ## 4. Looking names up -/

/-- Whether all views of a catalog agree: the symbols that are kept are the terminals and the
non-terminals with their kinds, no name occurs twice among them, and what is said of a name is said
of the symbol with this name. -/
structure ViewsAgree (c : Catalog) : Prop where
  mem_symbols_terminal : ∀ n, ⟨n, .terminal⟩ ∈ c.symbols ↔ n ∈ c.terminals
  mem_symbols_nonterminal : ∀ n, ⟨n, .nonterminal⟩ ∈ c.symbols ↔ n ∈ c.nonterminals
  nodup_names : (c.symbols.map (·.name)).Nodup
  symbol_eq_ok_iff : ∀ n s, c.symbol n = .ok s ↔ s ∈ c.symbols ∧ s.name = n
  contains_iff : ∀ n, c.contains n = true ↔ ∃ s ∈ c.symbols, s.name = n
  isTerminal_iff : ∀ n, c.isTerminal n = true ↔ n ∈ c.terminals
  isNonterminal_iff : ∀ n, c.isNonterminal n = true ↔ n ∈ c.nonterminals

theorem nodup_names_symbols (c : Catalog) : (c.symbols.map (·.name)).Nodup := by
  have hnames : c.symbols.map (·.name) = firstOccurrences (c.terminals ++ c.nonterminals) := by
    simp [c.symbols_eq, symbolsOf, Function.comp_def]
  rw [hnames]
  exact nodup_firstOccurrences _

/-- No symbol hides another one of the same name. -/
theorem symbol?_eq_some_iff {n : Name} {s : Symbol} :
    c.symbol? n = some s ↔ s ∈ c.symbols ∧ s.name = n := by
  constructor
  · intro h
    exact ⟨List.mem_of_find?_eq_some h, by simpa using List.find?_some h⟩
  · rintro ⟨hs, rfl⟩
    cases hfound : c.symbol? s.name with
    | none => exact absurd (by simp) (List.find?_eq_none.1 hfound s hs)
    | some found =>
      have hmem : found ∈ c.symbols := List.mem_of_find?_eq_some hfound
      have hname : found.name = s.name := by simpa using List.find?_some hfound
      rw [List.inj_on_of_nodup_map (nodup_names_symbols c) hmem hs hname]

theorem mem_symbols_iff {n : Name} {k : Kind} :
    ⟨n, k⟩ ∈ c.symbols ↔ c.symbol? n = some ⟨n, k⟩ := by
  rw [symbol?_eq_some_iff, and_iff_left rfl]

theorem Valid.viewsAgree (hv : c.Valid) : c.ViewsAgree where
  mem_symbols_terminal n := by
    have hd := hv.disjoint n
    rw [mem_symbols_iff, symbol?_eq]
    grind
  mem_symbols_nonterminal n := by
    rw [mem_symbols_iff, symbol?_eq]
    grind
  nodup_names := nodup_names_symbols c
  symbol_eq_ok_iff n s := by
    rw [← symbol?_eq_some_iff, symbol]
    cases c.symbol? n <;> simp
  contains_iff n := by
    rw [contains, Option.isSome_iff_exists]
    simp only [symbol?_eq_some_iff]
  isTerminal_iff n := by
    rw [Catalog.isTerminal_iff, and_iff_left_of_imp (hv.disjoint n)]
  isNonterminal_iff _ := Catalog.isNonterminal_iff

/-! ## 5. One request decides -/

/-- **One request decides.**  After any requests to a new catalog, refused ones included, the
catalog is valid and all views of it agree.  It is the open catalog as long as nobody has made a fit
`freeze`, and from the first one on it holds the first occurrences of the names of that request, and
its start symbol.  Every single request leaves it as it is, unless it is still open and the request
a fit `freeze`; one that is refused always does.  As long as the catalog is open, a `freeze` is
answered by the verdict on it. -/
theorem run_new_decided (rs : List Request) :
    (new.run rs).Valid ∧ (new.run rs).ViewsAgree ∧
      ((new.run rs).start = none ∧ new.run rs = new ∧ (∀ r ∈ rs, ¬ r.IsFit) ∨
        ∃ before ts ns s after, rs = before ++ .freeze ts ns (some s) :: after ∧
          (∀ r ∈ before, ¬ r.IsFit) ∧ IsFit ts ns (some s) ∧ s ∈ (new.run rs).nonterminals ∧
          new.run rs = frozen (firstOccurrences ts) (firstOccurrences ns) (some s)) ∧
      (∀ r, (new.run rs).start ≠ none ∨ ¬ r.IsFit ∨ (∃ e, ((new.run rs).serve r).2 = .error e) →
        ((new.run rs).serve r).1 = new.run rs) ∧
      ∀ ts ns start, (new.run rs).start = none →
        FreezeVerdict ts ns start ((new.run rs).serve (.freeze ts ns start)).2 := by
  have hv : (new.run rs).Valid := valid_new.run rs
  refine ⟨hv, hv.viewsAgree, ?_, ?_, fun ts ns start h =>
    freezeVerdict_serve (by rw [hv.isFrozen_eq, h]; rfl) ts ns start⟩
  · rcases forall_not_isFit_or_exists_first rs with
      hnone | ⟨before, ts, ns, start, after, hrs, hb, hfit⟩
    · have hrun : new.run rs = new := run_of_forall_not_isFit rfl hnone
      exact Or.inl ⟨by rw [hrun]; rfl, hrun, hnone⟩
    · have hrun : new.run rs = frozen (firstOccurrences ts) (firstOccurrences ns) start :=
        hrs ▸ run_of_isFit rfl hb hfit after
      obtain ⟨s, hs, rfl⟩ := hfit.start_mem
      exact Or.inr ⟨before, ts, ns, s, after, hrs, hb, hfit, by rw [hrun]; simpa using hs, hrun⟩
  · rintro r (hstart | hr | ⟨e, he⟩)
    · exact serve_of_isFrozen (hv.isFrozen_eq ▸ Option.isSome_iff_ne_none.2 hstart) r
    · cases hc : (new.run rs).isFrozen with
      | true => exact serve_of_isFrozen hc r
      | false => exact serve_of_not_isFit hc hr
    · exact serve_of_error he

end Catalog

end Lookahead
