import Lookahead.Grammar.Entries
import Lookahead.Proofs.Director
import Lookahead.Proofs.Reading

/-!
# No look-up misses

## 1. One look-up

At a name that is a key, a look-up gives what the table holds.  Nothing ever takes a key away, so a
table that **has entries** for some names keeps them (`Table.HasEntries.add`).

## 2. Passes

If no step misses as long as an invariant holds that every step keeps, then no pass misses, and no
repetition of passes (`saturate?_foldlM`).

## 3. Analyses

The FIRST table has entries for all declared names from the start, and the FOLLOW table for all
non-terminals.  Productions over a catalog ask for no others, so none of the analyses misses
(`Checked.analyse?_eq`), and neither does construction, which checks that the productions are over
the catalog (`Grammar.plain?_eq`).

## 4. Questions

The tables of a grammar still have these entries.  A question about a sequence looks up the names of
the sequence after they have been found to be declared.  Of an extended sequence the reader leaves
names only, and they are those that are no marks (`Grammar.WellFormed.firstOf?_eq`).
-/

namespace Lookahead

/-! ## 1. One look-up -/

namespace Table

/-- Whether the names are keys of the table. -/
def HasEntries (t : Table) (ns : List Name) : Prop := ∀ n ∈ ns, t.contains n = true

variable {t : Table} {n : Name} {ns ms : List Name}

/-- A look-up misses exactly at the names that are no keys. -/
theorem isSome_get? (t : Table) (n : Name) : (t.get? n).isSome = t.contains n :=
  Std.TreeMap.contains_eq_isSome_getElem?.symm

theorem get?_eq (h : t.contains n = true) : t.get? n = some (t.get n) := by
  rw [← isSome_get?, get?, Option.isSome_iff_exists] at h
  obtain ⟨s, hs⟩ := h
  rw [get?, get, Std.TreeMap.getD_eq_getD_getElem?, hs, Option.getD_some]

theorem add?_eq (h : t.contains n = true) (s : NameSet) : t.add? n s = some (t.add n s) := by
  rw [add?, get?_eq h]
  rfl

/-- Keys stay keys. -/
theorem HasEntries.add (h : t.HasEntries ns) (n : Name) (s : NameSet) :
    (t.add n s).HasEntries ns := fun m hm => by
  rw [contains_add, h m hm, Bool.or_true]

theorem hasEntries_blank (ns : List Name) : (blank ns).HasEntries ns :=
  fun n hn => (contains_blank ns n).2 hn

end Table

/-! ## 2. Passes -/

section Passes

variable {σ ι : Type} {step : σ → ι → σ} {step? : σ → ι → Option σ} {is : List ι} {I : σ → Prop}

theorem foldlM_eq_some_foldl (keep : ∀ s, ∀ i ∈ is, I s → I (step s i))
    (finds : ∀ s, ∀ i ∈ is, I s → step? s i = some (step s i)) {s : σ} (hs : I s) :
    is.foldlM step? s = some (is.foldl step s) := by
  induction is generalizing s with
  | nil => rfl
  | cons i is ih =>
    rw [List.foldlM_cons, finds s i List.mem_cons_self hs, List.foldl_cons]
    exact ih (fun s j hj => keep s j (List.mem_cons_of_mem i hj))
      (fun s j hj => finds s j (List.mem_cons_of_mem i hj)) (keep s i List.mem_cons_self hs)

/-- If no step misses while an invariant holds that the steps keep, no repetition of passes does. -/
theorem saturate?_foldlM (room : σ → Nat) (keep : ∀ s, ∀ i ∈ is, I s → I (step s i))
    (finds : ∀ s, ∀ i ∈ is, I s → step? s i = some (step s i)) {s : σ} (hs : I s) :
    saturate? (fun s => is.foldlM step? s) room s =
      some (saturate (fun s => is.foldl step s) room s) := by
  fun_induction saturate (fun s => is.foldl step s) room s with
  | case1 s t hroom r ih =>
    rw [saturate?, foldlM_eq_some_foldl keep finds hs]
    simp only [t] at hroom ih
    simp only [hroom, dite_true, ih (foldl_keeps keep hs), Option.map_some]
    rfl
  | case2 s t hroom =>
    rw [saturate?, foldlM_eq_some_foldl keep finds hs]
    simp only [t] at hroom
    simp only [hroom, dite_false]
    rfl

end Passes

/-! ## 3. Analyses -/

section Analyses

variable {c : Catalog} {ps : List Production} {first follow : Table} {nullable : NameSet}

/-- All declared names. -/
def Catalog.names (c : Catalog) : List Name := c.terminals ++ c.nonterminals

theorem firstOfSequence?_eq {u : List Name} (h : ∀ n ∈ u, first.contains n = true) :
    firstOfSequence? first nullable u = some (firstOfSequence first nullable u) := by
  induction u with
  | nil => rfl
  | cons n u ih =>
    rw [List.forall_mem_cons] at h
    rw [firstOfSequence?, Table.get?_eq h.1]
    by_cases hn : n ∈ nullable
    · rw [firstOfSequence_cons_nullable hn, ih h.2]
      simp [hn]
    · rw [firstOfSequence_cons hn]
      simp [hn]

theorem hasEntries_initialFirst (c : Catalog) : (initialFirst c).HasEntries c.names := by
  have h : ∀ (ts : List Name) (t : Table) (n : Name), n ∈ ts ∨ t.contains n = true →
      (ts.foldl (fun t n => t.add n (.singleton n)) t).contains n = true := by
    intro ts
    induction ts with
    | nil => exact fun t n hn => hn.resolve_left List.not_mem_nil
    | cons m ts ih =>
      intro t n hn
      refine ih (t.add m (.singleton m)) n ?_
      rw [Table.contains_add, Bool.or_eq_true, beq_iff_eq]
      rcases hn with hn | hn
      · exact (List.mem_cons.1 hn).elim (fun he => Or.inr (Or.inl he)) Or.inl
      · exact Or.inr (Or.inr hn)
  intro n hn
  refine h c.terminals _ n ((List.mem_append.1 hn).imp_right fun hn => ?_)
  exact Table.hasEntries_blank c.nonterminals n hn

/-- The names of a checked production have entries. -/
theorem Checked.contains_rhs (h : Checked c ps) (hf : first.HasEntries c.names) {p : Production}
    (hp : p ∈ ps) : ∀ n ∈ p.rhs, first.contains n = true :=
  fun n hn => hf n (List.mem_append.2 (h.rhs_mem hp hn))

theorem Checked.firstStep?_eq (h : Checked c ps) (hf : first.HasEntries c.names) {p : Production}
    (hp : p ∈ ps) : firstStep? nullable first p = some (firstStep nullable first p) := by
  rw [firstStep?, firstOfSequence?_eq (h.contains_rhs hf hp)]
  exact Table.add?_eq (hf p.lhs (List.mem_append_right _ (h.lhs_mem hp))) _

theorem hasEntries_firstTable (c : Catalog) (ps : List Production) (nullable : NameSet) :
    (firstTable c ps nullable).HasEntries c.names :=
  saturate_foldl_induction (I := (Table.HasEntries · c.names))
    (fun _ p _ hs => hs.add p.lhs _) (hasEntries_initialFirst c)

theorem Checked.firstRun?_eq (h : Checked c ps) (nullable : NameSet) :
    firstRun? c ps nullable = some (firstRun c ps nullable) :=
  saturate?_foldlM (I := (Table.HasEntries · c.names)) _ (fun _ p _ hs => hs.add p.lhs _)
    (fun _ _ hp hs => h.firstStep?_eq hs hp) (hasEntries_initialFirst c)

theorem Checked.firstTable?_eq (h : Checked c ps) (nullable : NameSet) :
    firstTable? c ps nullable = some (firstTable c ps nullable) := by
  rw [firstTable?, h.firstRun?_eq]
  rfl

theorem hasEntries_followScan (hw : follow.HasEntries c.nonterminals) (trailer : NameSet)
    (u : List Name) :
    (followScan c first nullable follow trailer u).1.HasEntries c.nonterminals := by
  induction u with
  | nil => exact hw
  | cons n u ih =>
    by_cases hn : c.isNonterminal n = true
    · simp only [followScan, hn, if_true]
      exact ih.add n _
    · simp only [followScan, hn]
      exact ih

/-- Only non-terminals are looked up on the way along a right-hand side. -/
theorem followScan?_eq (hf : first.HasEntries c.names) (hw : follow.HasEntries c.nonterminals)
    (trailer : NameSet) (u : List Name) :
    followScan? c first nullable follow trailer u =
      some (followScan c first nullable follow trailer u) := by
  induction u with
  | nil => rfl
  | cons n u ih =>
    by_cases hn : c.isNonterminal n = true
    · have hmem := Catalog.isNonterminal_iff.1 hn
      have hbehind : (followScan c first nullable follow trailer u).1.contains n = true :=
        hasEntries_followScan hw trailer u n hmem
      simp [followScan?, followScan, ih, hn, Table.add?_eq hbehind,
        Table.get?_eq (hf n (List.mem_append_right _ hmem))]
    · simp [followScan?, followScan, ih, hn]

theorem Checked.followStep?_eq (h : Checked c ps) (hf : first.HasEntries c.names)
    (hw : follow.HasEntries c.nonterminals) {p : Production} (hp : p ∈ ps) :
    followStep? c first nullable follow p = some (followStep c first nullable follow p) := by
  rw [followStep?, Table.get?_eq (hw p.lhs (h.lhs_mem hp))]
  simp [followScan?_eq hf hw, followStep]

/-- A start symbol that is declared has an entry from the start. -/
theorem Checked.initialFollow?_eq (h : Checked c ps) :
    initialFollow? c = some (initialFollow c) := by
  obtain ⟨s, hs⟩ := h.valid.exists_start h.isFrozen
  have hmem := h.valid.start_mem s hs
  rw [initialFollow?, initialFollow, hs]
  exact Table.add?_eq (Table.hasEntries_blank c.nonterminals s hmem) _

theorem hasEntries_initialFollow (c : Catalog) :
    (initialFollow c).HasEntries c.nonterminals := by
  unfold initialFollow
  split
  · exact (Table.hasEntries_blank c.nonterminals).add _ _
  · exact Table.hasEntries_blank c.nonterminals

theorem hasEntries_followTable (c : Catalog) (ps : List Production) (first : Table)
    (nullable : NameSet) : (followTable c ps first nullable).HasEntries c.nonterminals :=
  saturate_foldl_induction (I := (Table.HasEntries · c.nonterminals))
    (fun _ p _ hs => hasEntries_followScan hs _ p.rhs) (hasEntries_initialFollow c)

theorem Checked.followRun?_eq (h : Checked c ps) (hf : first.HasEntries c.names) :
    followRun? c ps first nullable = some (followRun c ps first nullable) := by
  rw [followRun?, h.initialFollow?_eq, Option.bind_some]
  exact saturate?_foldlM (I := (Table.HasEntries · c.nonterminals)) _
    (fun _ p _ hs => hasEntries_followScan hs _ p.rhs)
    (fun _ _ hp hs => h.followStep?_eq hf hs hp) (hasEntries_initialFollow c)

theorem Checked.followTable?_eq (h : Checked c ps) (hf : first.HasEntries c.names) :
    followTable? c ps first nullable = some (followTable c ps first nullable) := by
  rw [followTable?, h.followRun?_eq hf]
  rfl

theorem mapM_eq_some_map {α β : Type} {f? : α → Option β} {f : α → β} {l : List α}
    (h : ∀ a ∈ l, f? a = some (f a)) : l.mapM f? = some (l.map f) := by
  induction l with
  | nil => rfl
  | cons a l ih =>
    rw [List.forall_mem_cons] at h
    rw [List.mapM_cons, h.1, ih h.2]
    rfl

theorem Checked.directorRow?_eq (h : Checked c ps) (hf : first.HasEntries c.names)
    (hw : follow.HasEntries c.nonterminals) (n : Name) :
    directorRow? ps first follow nullable n = some (directorRow ps first follow nullable n) := by
  refine mapM_eq_some_map fun a ha => ?_
  obtain ⟨rfl, hrhs⟩ := mem_alternativesOf.1 ha
  have hp := mem_rhssOf.1 (List.mem_of_getElem? hrhs)
  rw [directorSet?, firstOfSequence?_eq (h.contains_rhs hf hp), directorSet,
    Table.get?_eq (hw a.lhs (h.lhs_mem hp))]
  cases hnull : (firstOfSequence first nullable a.rhs).2 <;> simp [hnull]

/-- No analysis of checked productions misses. -/
theorem Checked.analyse?_eq (h : Checked c ps) :
    Grammar.analyse? c ps = some (Grammar.analyse c ps) := by
  have hf := hasEntries_firstTable c ps (nullableSet c ps)
  have hw := hasEntries_followTable c ps (firstTable c ps (nullableSet c ps)) (nullableSet c ps)
  have hrows : c.nonterminals.mapM (fun n => do
        let row ← directorRow? ps (firstTable c ps (nullableSet c ps))
          (followTable c ps (firstTable c ps (nullableSet c ps)) (nullableSet c ps))
          (nullableSet c ps) n
        return (n, row)) = some (Grammar.analyse c ps).director := by
    refine mapM_eq_some_map fun n _ => ?_
    rw [h.directorRow?_eq hf hw]
    rfl
  rw [Grammar.analyse?, h.firstTable?_eq]
  simp only [Option.bind_eq_bind, Option.bind_some]
  rw [h.followTable?_eq hf, Option.bind_some]
  exact congrArg (Option.bind · _) hrows

/-- Whatever a grammar is to be made of, its construction does not miss. -/
theorem Grammar.plain?_eq (ts ns : List Name) (ps : List Production) (start : Option Name) :
    plain? ts ns ps start = (plain ts ns ps start).map some := by
  rw [plain?, plain]
  cases hc : Catalog.new.freeze ts ns start with
  | error e => rfl
  | ok c =>
    cases hps : c.checkProductions ps with
    | error e => simp only [hps, Except.map]
    | ok qs =>
      obtain ⟨rfl, -⟩ := Catalog.checkProductions_eq_ok_iff.1 hps
      simp only [hps, Except.map, (Checked.of_freeze hc hps).analyse?_eq]

end Analyses

/-! ## 4. Questions -/

/-- Whether the leaf is a name that has an entry. -/
def Leaf.HasEntry (first : Table) (l : Leaf) : Prop := ∃ n, l = .name n ∧ first.contains n = true

namespace Expr

variable {first : Table} {nullable : NameSet}

mutual

theorem firstOfAtom?_eq (a : Atom) (h : ∀ l ∈ atomLeaves a, l.HasEntry first) :
    firstOfAtom? first nullable a = some (firstOfAtom first nullable a) := by
  match a with
  | .leaf l suffix _ =>
    obtain ⟨n, rfl, hn⟩ := h l (by simp [atomLeaves])
    rw [firstOfAtom?, Table.get?_eq hn]
    rfl
  | .group alternatives suffix _ =>
    rw [firstOfAtom?, first?_eq alternatives h]
    rfl

theorem firstOfAtoms?_eq (as : List Atom) (h : ∀ l ∈ sequenceLeaves as, l.HasEntry first) :
    firstOfAtoms? first nullable as = some (firstOfAtoms first nullable as) := by
  match as with
  | [] => rfl
  | a :: as =>
    rw [sequenceLeaves, List.forall_mem_append] at h
    rw [firstOfAtoms?, firstOfAtom?_eq a h.1, firstOfAtoms?_eq as h.2, firstOfAtoms]
    cases hn : (firstOfAtom first nullable a).2 <;> simp [hn]

/-- If the leaves of an expression have entries, then all that is looked up has. -/
theorem first?_eq (e : List (List Atom)) (h : ∀ l ∈ leaves e, l.HasEntry first) :
    Expr.first? first nullable e = some (Expr.first first nullable e) := by
  match e with
  | [] => rfl
  | alternative :: rest =>
    rw [leaves, List.forall_mem_append] at h
    rw [Expr.first?, firstOfAtoms?_eq alternative h.1, first?_eq rest h.2]
    rfl

end

/-- What is read from a list has the names in its leaves that are no marks, and nothing else. -/
theorem leaves_of_ofNames {u : List Name} {lhs : Option Name} {e : Expr}
    (h : ofNames u lhs = .ok e) : leaves e = plainLeaves u := by
  obtain ⟨e', he, -, hleaves⟩ := ((exists_ofNames_iff lhs).1 ⟨e, h⟩).exists_ofNames
  obtain rfl := Except.ok.inj ((he lhs).symm.trans h)
  exact hleaves

end Expr

/-- Names that have been asked for are declared. -/
theorem Catalog.declared_of_requireAll {c : Catalog} {u v : List Name}
    (h : c.requireAll u = .ok v) : u = v ∧ ∀ n ∈ u, n ∈ c.names := by
  unfold requireAll at h
  split at h
  · cases h
  · rename_i hnone
    refine ⟨Except.ok.inj h, fun n hn => ?_⟩
    have hc : c.contains n = true := by simpa using List.find?_eq_none.1 hnone n hn
    exact List.mem_append.2 (Catalog.contains_iff.1 hc)

namespace Grammar

variable {g : Grammar}

theorem WellFormed.hasEntries_first (h : g.WellFormed) :
    g.first.HasEntries g.catalog.names := by
  rw [h.tables]
  exact hasEntries_firstTable _ _ _

theorem WellFormed.hasEntries_follow (h : g.WellFormed) :
    g.follow.HasEntries g.catalog.nonterminals := by
  rw [h.tables]
  exact hasEntries_followTable _ _ _ _

/-- No question about a sequence misses. -/
theorem WellFormed.firstOf?_eq (h : g.WellFormed) (u : List Name) :
    g.firstOf? u = (g.firstOf u).map some := by
  have hentries := h.hasEntries_first
  rw [firstOf?, firstOf]
  split
  · cases he : Expr.ofNames u none with
    | error e => rfl
    | ok e =>
      cases hall : g.catalog.requireAll (u.filter (! isMark ·)) with
      | error e => rfl
      | ok names =>
        obtain ⟨-, hdeclared⟩ := Catalog.declared_of_requireAll hall
        refine congrArg Except.ok (Expr.first?_eq e fun l hl => ?_)
        rw [Expr.leaves_of_ofNames he] at hl
        obtain ⟨n, hn, rfl⟩ := List.mem_map.1 hl
        exact ⟨n, rfl, hentries n (hdeclared n hn)⟩
  · cases hall : g.catalog.requireAll u with
    | error e => rfl
    | ok names =>
      obtain ⟨rfl, hdeclared⟩ := Catalog.declared_of_requireAll hall
      exact congrArg Except.ok (firstOfSequence?_eq fun n hn => hentries n (hdeclared n hn))

theorem WellFormed.followSet?_eq (h : g.WellFormed) (n : Name) :
    g.followSet? n = (g.followSet n).map some := by
  rw [followSet?, followSet]
  by_cases hn : n ∈ g.catalog.nonterminals
  · rw [Catalog.requireNonterminal_of_mem hn]
    exact congrArg Except.ok (Table.get?_eq (h.hasEntries_follow n hn))
  · rw [Catalog.requireNonterminal_of_notMem hn]
    rfl

theorem WellFormed.directorSets?_eq (h : g.WellFormed) (n : Name) :
    g.directorSets? n = (g.directorSets n).map some := by
  rw [directorSets?, directorSets]
  by_cases hn : n ∈ g.catalog.nonterminals
  · rw [Catalog.requireNonterminal_of_mem hn]
    simp only [Except.map, h.find?_director hn, Option.map_some]
  · rw [Catalog.requireNonterminal_of_notMem hn]
    rfl

end Grammar

end Lookahead
