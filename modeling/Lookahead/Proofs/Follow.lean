import Lookahead.Proofs.First

/-!
# FOLLOW is exact

A name **follows** a non-terminal `b` if it is a terminal and stands right behind `b` in a
sentential form of some declared non-terminal, reachable or not, or if it is the end marker and `b`
ends a sentential form of the start symbol (`Follows`).  The FOLLOW table holds just these names.

## 1. One reading of a right-hand side

`followScan` goes through a right-hand side from its right end.  In front of each part it has read,
the trailer is what can stand ahead of that part (`followScan_snd`), and what it adds to a
non-terminal is the trailer behind it (`mem_followStep`).  The trailer at the right end is copied
from the left-hand side before the scan, so a right-hand side that contains its own left-hand side
is read against the old set.  That only delays an addition to the next pass.

## 2. Nothing else is found

Every state of the repetition holds only names that follow.  This is an invariant of a single step:
a name of the trailer comes from the part behind, or that part can vanish and the name follows the
left-hand side.

## 3. Everything is found

The table is closed.  A sentential form is **covered** if at each of its non-terminals the table
holds what can stand ahead of the rest of the form.  A single non-terminal is covered, and a step
leads from covered forms to covered forms: the three origins of an occurrence are the three cases.
This takes the place of looking for the production in a derivation tree at which the two names
first belong to different subtrees.
-/

namespace Lookahead

variable {c : Catalog} {ps : List Production} {nullable trailer behind : NameSet}
  {first follow : Table}

/-- Whether a name can stand right behind a non-terminal. -/
inductive Follows (c : Catalog) (ps : List Production) (b : Name) : Name → Prop
  /-- A terminal, in a sentential form of any declared non-terminal. -/
  | terminal {t a : Name} {u v : List Name} (ht : t ∈ c.terminals) (ha : a ∈ c.nonterminals)
      (hd : Derives ps [a] (u ++ b :: t :: v)) : Follows c ps b t
  /-- The end marker, behind a sentential form of the start symbol. -/
  | endMarker {s : Name} {u : List Name} (hs : c.start = some s) (hd : Derives ps [s] (u ++ [b])) :
      Follows c ps b endMarker

/-! ## 1. One reading of a right-hand side -/

theorem followScan_mono {follow' : Table} {trailer' : NameSet} (hf : follow ≤ follow')
    (ht : trailer ≤ trailer') (u : List Name) :
    (followScan c first nullable follow trailer u).1 ≤
        (followScan c first nullable follow' trailer' u).1 ∧
      (followScan c first nullable follow trailer u).2 ≤
        (followScan c first nullable follow' trailer' u).2 := by
  induction u with
  | nil => exact ⟨hf, ht⟩
  | cons n u ih =>
    obtain ⟨ih₁, ih₂⟩ := ih
    by_cases hn : c.isNonterminal n = true
    · by_cases hm : n ∈ nullable
      · simp only [followScan, hn, hm, if_true]
        exact ⟨Table.add_mono ih₁ n ih₂, NameSet.union_le_union le_rfl ih₂⟩
      · simp only [followScan, hn, hm, if_true, if_false]
        exact ⟨Table.add_mono ih₁ n ih₂, le_rfl⟩
    · simp only [followScan, hn]
      exact ⟨ih₁, le_rfl⟩

theorem le_followScan (u : List Name) :
    follow ≤ (followScan c first nullable follow trailer u).1 := by
  induction u with
  | nil => exact le_rfl
  | cons n u ih =>
    by_cases hn : c.isNonterminal n = true
    · simp only [followScan, hn, if_true]
      exact ih.trans (Table.le_add _ n _)
    · simp only [followScan, hn]
      exact ih

theorem isGrowing_followStep (c : Catalog) (first : Table) (nullable : NameSet) :
    IsGrowing (followStep c first nullable) where
  le _ p := le_followScan p.rhs
  mono p _ _ h := (followScan_mono h (h p.lhs) p.rhs).1

/-- Whether the tables treat the terminals of a sequence as terminals: they start with themselves
and do not vanish. -/
def ReadsTerminals (c : Catalog) (first : Table) (nullable : NameSet) (u : List Name) : Prop :=
  ∀ n ∈ u, n ∉ c.nonterminals → n ∉ nullable ∧ first.get n = .singleton n

/-- In front of what was read, the trailer is what can stand ahead of it. -/
theorem followScan_snd {u : List Name} (h : ReadsTerminals c first nullable u) :
    (followScan c first nullable follow trailer u).2 = ahead first nullable trailer u := by
  induction u with
  | nil => exact ahead_nil.symm
  | cons n u ih =>
    have ih := ih fun m hm => h m (List.mem_cons_of_mem n hm)
    by_cases hn : n ∈ c.nonterminals
    · have hn' : c.isNonterminal n = true := Catalog.isNonterminal_iff.2 hn
      by_cases hm : n ∈ nullable
      · rw [ahead_cons_nullable hm, ← ih]
        simp only [followScan, hn', hm, if_true]
      · rw [ahead_cons hm]
        simp only [followScan, hn', hm, if_true, if_false]
    · have hn' : ¬ c.isNonterminal n = true := fun e => hn (Catalog.isNonterminal_iff.1 e)
      obtain ⟨hm, hfirst⟩ := h n List.mem_cons_self hn
      rw [ahead_cons hm, hfirst]
      simp only [followScan, hn', if_false, Bool.false_eq_true]

/-- An occurrence in a longer sequence is its first name or an occurrence in the rest. -/
theorem exists_cons_eq_append_cons {n b : Name} {u : List Name} {P : List Name → Prop} :
    (∃ before after, n :: u = before ++ b :: after ∧ P after) ↔
      n = b ∧ P u ∨ ∃ before after, u = before ++ b :: after ∧ P after := by
  constructor
  · rintro ⟨before, after, he, hP⟩
    cases before with
    | nil =>
      obtain ⟨rfl, rfl⟩ := List.cons.inj he
      exact Or.inl ⟨rfl, hP⟩
    | cons m before =>
      obtain ⟨rfl, rfl⟩ := List.cons.inj he
      exact Or.inr ⟨before, after, rfl, hP⟩
  · rintro (⟨rfl, hP⟩ | ⟨before, after, rfl, hP⟩)
    · exact ⟨[], u, rfl, hP⟩
    · exact ⟨n :: before, after, rfl, hP⟩

/-- A non-terminal is given what can stand ahead of the part behind it. -/
theorem mem_followScan {u : List Name} (h : ReadsTerminals c first nullable u) {b x : Name} :
    x ∈ (followScan c first nullable follow trailer u).1.get b ↔
      x ∈ follow.get b ∨ ∃ before after, u = before ++ b :: after ∧
        (b ∈ c.nonterminals ∧ x ∈ ahead first nullable trailer after) := by
  induction u with
  | nil => simp [followScan]
  | cons n u ih =>
    have hu : ReadsTerminals c first nullable u := fun m hm => h m (List.mem_cons_of_mem n hm)
    rw [exists_cons_eq_append_cons]
    by_cases hn : n ∈ c.nonterminals
    · have hn' : c.isNonterminal n = true := Catalog.isNonterminal_iff.2 hn
      have hfst : (followScan c first nullable follow trailer (n :: u)).1 =
          (followScan c first nullable follow trailer u).1.add n
            (followScan c first nullable follow trailer u).2 := by
        simp only [followScan, hn', if_true]
      rw [hfst, Table.get_add, followScan_snd hu]
      by_cases he : b = n
      · subst he
        rw [if_pos rfl, NameSet.mem_union, ih hu, or_assoc]
        simp only [hn, true_and]
        exact or_congr_right or_comm
      · rw [if_neg he, ih hu]
        simp [Ne.symm he]
    · have hn' : ¬ c.isNonterminal n = true := fun e => hn (Catalog.isNonterminal_iff.1 e)
      have hfst : (followScan c first nullable follow trailer (n :: u)).1 =
          (followScan c first nullable follow trailer u).1 := by
        simp only [followScan, hn', if_false, Bool.false_eq_true]
      rw [hfst, ih hu]
      refine or_congr_right ⟨Or.inr, fun hx => hx.resolve_left ?_⟩
      rintro ⟨rfl, hb, -⟩
      exact hn hb

/-- What reading one production adds. -/
theorem mem_followStep {p : Production} (h : ReadsTerminals c first nullable p.rhs) {b x : Name} :
    x ∈ (followStep c first nullable follow p).get b ↔
      x ∈ follow.get b ∨ ∃ before after, p.rhs = before ++ b :: after ∧
        (b ∈ c.nonterminals ∧ x ∈ ahead first nullable (follow.get p.lhs) after) :=
  mem_followScan h

/-- The computed tables treat terminals as terminals. -/
theorem readsTerminals_rhs (h : Checked c ps) {p : Production} (hp : p ∈ ps) :
    ReadsTerminals c (firstTable c ps (nullableSet c ps)) (nullableSet c ps) p.rhs := by
  intro n hn hnt
  have ht : n ∈ c.terminals := (h.rhs_mem hp hn).resolve_right hnt
  refine ⟨notMem_nullableSet_of_mem_terminals h ht, ?_⟩
  rw [(firstBounded_firstTable h _).get_eq n hnt]
  ext t
  rw [get_initialFirst, NameSet.mem_singleton]
  simp [ht]

/-! ## 2. Nothing else is found -/

/-- What follows a left-hand side follows each name of the right-hand side that what stands behind
it can leave at the end. -/
theorem Follows.of_rhs {p : Production} (hp : p ∈ ps) {before after : List Name} {b x : Name}
    (hr : p.rhs = before ++ b :: after) (ha : Derives ps after []) (h : Follows c ps p.lhs x) :
    Follows c ps b x := by
  -- inside any context, the left-hand side gives way to what ends in the name
  have inside : ∀ u v, Derives ps (u ++ p.lhs :: v) (u ++ before ++ b :: v) := by
    intro u v
    have step : Derives ps (p.lhs :: v) (p.rhs ++ v) := (Derives.of_mem hp).append_right v
    have vanish : Derives ps (p.rhs ++ v) (before ++ b :: v) := by
      rw [hr, List.append_assoc]
      exact ((ha.append_right v).append_left [b]).append_left before
    rw [List.append_assoc]
    exact (step.trans vanish).append_left u
  cases h with
  | @terminal _ a u v ht ha hd => exact .terminal ht ha (hd.trans (inside u (x :: v)))
  | @endMarker s u hs hd => exact .endMarker hs (hd.trans (inside u []))

/-- Whether a FOLLOW table holds only what follows, and only for declared non-terminals. -/
def FollowSound (c : Catalog) (ps : List Production) (follow : Table) : Prop :=
  ∀ b, ∀ x ∈ follow.get b, b ∈ c.nonterminals ∧ Follows c ps b x

theorem FollowSound.followStep (h : Checked c ps) (hs : FollowSound c ps follow)
    {p : Production} (hp : p ∈ ps) :
    FollowSound c ps
      (followStep c (firstTable c ps (nullableSet c ps)) (nullableSet c ps) follow p) := by
  intro b x hx
  rcases (mem_followStep (readsTerminals_rhs h hp)).1 hx with hx | ⟨before, after, hr, hb, hx⟩
  · exact hs b x hx
  refine ⟨hb, ?_⟩
  have sound := firstSound_firstTable c ps
  rcases mem_ahead.1 hx with hx | ⟨hnull, hx⟩
  · -- the name starts what stands behind
    obtain ⟨m, -, hm⟩ := exists_mem_of_mem_firstOfSequence hx
    obtain ⟨v, hv⟩ := sound.derives_of_mem_firstOfSequence hx
    refine .terminal ((firstBounded_firstTable h _).mem_terminals m x hm) (h.lhs_mem hp)
      (u := before) (v := v) ((Derives.of_mem hp).trans ?_)
    rw [hr]
    exact (hv.append_left [b]).append_left before
  · -- what stands behind can vanish
    have vanish : Derives ps after [] :=
      derives_nil_of_forall_mem fun n hn => sound.derives_nil n (hnull n hn)
    exact (hs p.lhs x hx).2.of_rhs hp hr vanish

theorem get_initialFollow (c : Catalog) {n x : Name} :
    x ∈ (initialFollow c).get n ↔ c.start = some n ∧ x = endMarker := by
  unfold initialFollow
  cases c.start with
  | none => simp
  | some s =>
    rw [Table.get_add]
    by_cases hn : n = s
    · simp [hn]
    · simp [hn, Ne.symm hn]

theorem followSound_initialFollow (h : Checked c ps) : FollowSound c ps (initialFollow c) := by
  intro b x hx
  obtain ⟨hs, rfl⟩ := (get_initialFollow c).1 hx
  exact ⟨h.valid.start_mem b hs, .endMarker (u := []) hs (.refl [b])⟩

/-- The computed FOLLOW table, for the computed FIRST table and nullable set. -/
theorem followSound_followTable (h : Checked c ps) :
    FollowSound c ps
      (followTable c ps (firstTable c ps (nullableSet c ps)) (nullableSet c ps)) :=
  saturate_foldl_induction (I := FollowSound c ps)
    (fun _ _ hp hs => FollowSound.followStep h hs hp) (followSound_initialFollow h)

/-! ## 3. Everything is found -/

/-- Whether the table holds, at each non-terminal of a sequence, what can stand ahead of the rest
of the sequence. -/
def Covers (c : Catalog) (first : Table) (nullable : NameSet) (follow : Table)
    (behind : NameSet) (u : List Name) : Prop :=
  ∀ before b after, u = before ++ b :: after → b ∈ c.nonterminals →
    ahead first nullable behind after ≤ follow.get b

/-- The end marker follows the start symbol, and no production adds to the FOLLOW table. -/
structure FollowClosed (c : Catalog) (ps : List Production) (nullable : NameSet)
    (first follow : Table) : Prop where
  start_mem : ∀ s, c.start = some s → endMarker ∈ follow.get s
  covers_rhs : ∀ p ∈ ps, Covers c first nullable follow (follow.get p.lhs) p.rhs

/-- A step leads from covered forms to covered forms. -/
theorem Covers.step (hf : FirstClosed c ps nullable first)
    (hc : FollowClosed c ps nullable first follow) (h : Checked c ps) {u v : List Name}
    (hu : Covers c first nullable follow behind u) (hs : Step ps u v) :
    Covers c first nullable follow behind v := by
  intro before b after hv hb
  subst hv
  cases hs.origin with
  | @front p hp mid rest he ha =>
    rw [ha]
    exact (hf.ahead_le_of_step (Step.mk hp mid rest)).trans (hu before b _ he hb)
  | @inside p hp left mid right rest he hr _ ha =>
    -- what stands behind the right-hand side follows the left-hand side
    rw [ha, ahead_append]
    have hl := hu left p.lhs rest he (h.lhs_mem hp)
    exact (ahead_mono hl right).trans (hc.covers_rhs p hp mid b right hr hb)
  | @behind p hp left mid he _ =>
    refine hu (left ++ p.lhs :: mid) b after ?_ hb
    rw [he, List.append_assoc, List.cons_append]

theorem Covers.derives (hf : FirstClosed c ps nullable first)
    (hc : FollowClosed c ps nullable first follow) (h : Checked c ps) {u v : List Name}
    (hu : Covers c first nullable follow behind u) (hd : Derives ps u v) :
    Covers c first nullable follow behind v := by
  induction hd with
  | refl => exact hu
  | tail _ step ih => exact ih.step hf hc h step

/-- A single name is covered when what can stand behind it is in its set. -/
theorem covers_singleton {a : Name} (ha : behind ≤ follow.get a) :
    Covers c first nullable follow behind [a] := by
  intro before b after he _
  cases before with
  | nil =>
    obtain ⟨rfl, rfl⟩ := List.cons.inj he
    rw [ahead_nil]
    exact ha
  | cons m before => exact absurd (List.cons.inj he).2 (by simp)

/-- In a form derived from the start symbol, the table holds at each non-terminal what can stand
ahead of the rest and the end marker. -/
theorem FollowClosed.covers_of_start (hc : FollowClosed c ps nullable first follow)
    (hf : FirstClosed c ps nullable first) (h : Checked c ps) {s : Name} (hs : c.start = some s)
    {u : List Name} (hd : Derives ps [s] u) :
    Covers c first nullable follow (.singleton endMarker) u := by
  refine (covers_singleton ?_).derives hf hc h hd
  intro x hx
  rw [NameSet.mem_singleton.1 hx]
  exact hc.start_mem s hs

/-- The table holds all that follows. -/
theorem FollowClosed.mem_of_follows (hc : FollowClosed c ps nullable first follow)
    (hf : FirstClosed c ps nullable first) (h : Checked c ps) {b x : Name}
    (hb : b ∈ c.nonterminals) (hx : Follows c ps b x) : x ∈ follow.get b := by
  cases hx with
  | @terminal _ a u v ht _ hd =>
    have hcov : Covers c first nullable follow ∅ [a] :=
      covers_singleton fun x hx => absurd hx (NameSet.not_mem_empty x)
    exact hcov.derives hf hc h hd u b (x :: v) rfl hb x (hf.mem_ahead_cons ht ∅ v)
  | @endMarker s u hs hd =>
    have hle := hc.covers_of_start hf h hs hd u b [] rfl hb
    rw [ahead_nil] at hle
    exact hle endMarker (NameSet.mem_singleton.2 rfl)

/-- Sound tables are measured by the number of members of the sets of the non-terminals. -/
theorem isMeasured_followSound (c : Catalog) (ps : List Production) :
    IsMeasured (FollowSound c ps) (fun t => t.sizeOver c.nonterminals)
      (c.nonterminals.length * (c.terminals.length + 1)) where
  mono _ _ hst := Table.sizeOver_mono hst c.nonterminals
  size_le s hs := by
    refine Table.sizeOver_le fun n _ => ?_
    have hsub : ∀ x ∈ s.get n, x ∈ endMarker :: c.terminals := by
      intro x hx
      cases (hs n x hx).2 with
      | terminal ht _ _ => exact List.mem_cons_of_mem _ ht
      | endMarker _ _ => exact List.mem_cons_self
    exact NameSet.size_le_length hsub
  tight s t _ ht hst hsize n := by
    by_cases hn : n ∈ c.nonterminals
    · exact Table.get_le_of_sizeOver_le hst hsize n hn
    · exact fun x hx => absurd (ht n x hx).1 hn

/-- The computed tables are closed. -/
theorem followClosed_followTable (h : Checked c ps) :
    FollowClosed c ps (nullableSet c ps) (firstTable c ps (nullableSet c ps))
      (followTable c ps (firstTable c ps (nullableSet c ps)) (nullableSet c ps)) where
  start_mem s hs := by
    have grows : initialFollow c ≤
        followTable c ps (firstTable c ps (nullableSet c ps)) (nullableSet c ps) :=
      saturate_foldl_induction (I := fun t => initialFollow c ≤ t)
        (fun t p _ ht => ht.trans ((isGrowing_followStep c _ _).le t p)) le_rfl
    exact grows s endMarker ((get_initialFollow c).2 ⟨hs, rfl⟩)
  covers_rhs p hp := by
    have closed : followStep c (firstTable c ps (nullableSet c ps)) (nullableSet c ps)
        (followTable c ps (firstTable c ps (nullableSet c ps)) (nullableSet c ps)) p ≤
          followTable c ps (firstTable c ps (nullableSet c ps)) (nullableSet c ps) :=
      step_saturate_le (isGrowing_followStep c _ _) (isMeasured_followSound c ps)
        (fun _ _ hp hs => FollowSound.followStep h hs hp) (followSound_initialFollow h) hp
    intro before b after hr hb x hx
    exact closed b x ((mem_followStep (readsTerminals_rhs h hp)).2
      (Or.inr ⟨before, after, hr, hb, hx⟩))

/-! ## 4. Exactness -/

/-- The computed table holds exactly what follows. -/
theorem mem_followTable_iff (h : Checked c ps) {b : Name} (hb : b ∈ c.nonterminals) {x : Name} :
    x ∈ (followTable c ps (firstTable c ps (nullableSet c ps)) (nullableSet c ps)).get b ↔
      Follows c ps b x :=
  ⟨fun hx => (followSound_followTable h b x hx).2,
    (followClosed_followTable h).mem_of_follows (firstClosed_firstTable h) h hb⟩

/-- **FOLLOW is exact.**  For productions accepted on a frozen catalog, a terminal is in FOLLOW of
a non-terminal exactly if it stands right behind it in a sentential form of some declared
non-terminal, and the end marker exactly if the non-terminal ends a sentential form of the start
symbol.  No other name is in FOLLOW of anything. -/
theorem Grammar.mem_follow_analyse {ts ns : List Name} {s : Option Name}
    (hc : Catalog.new.freeze ts ns s = .ok c) (hps : c.checkProductions ps = .ok ps) {b : Name}
    (hb : b ∈ c.nonterminals) :
    (∀ t ∈ c.terminals, t ∈ (analyse c ps).follow.get b ↔
      ∃ a ∈ c.nonterminals, ∃ u v, Derives ps [a] (u ++ b :: t :: v)) ∧
    (endMarker ∈ (analyse c ps).follow.get b ↔
      ∃ s u, c.start = some s ∧ Derives ps [s] (u ++ [b])) ∧
    ∀ x ∈ (analyse c ps).follow.get b, x ∈ c.terminals ∨ x = endMarker := by
  have h : Checked c ps := .of_freeze hc hps
  have hiff : ∀ x, x ∈ (analyse c ps).follow.get b ↔ Follows c ps b x :=
    fun x => mem_followTable_iff h hb
  refine ⟨fun t ht => ?_, ?_, fun x hx => ?_⟩
  · rw [hiff]
    constructor
    · intro hf
      cases hf with
      | terminal _ ha hd => exact ⟨_, ha, _, _, hd⟩
      | endMarker _ _ => exact absurd ht h.valid.endMarker_notMem_terminals
    · rintro ⟨a, ha, u, v, hd⟩
      exact .terminal ht ha hd
  · rw [hiff]
    constructor
    · generalize he : endMarker = x
      intro hf
      cases hf with
      | terminal ht _ _ => exact absurd (he ▸ ht) h.valid.endMarker_notMem_terminals
      | endMarker hs hd => exact ⟨_, _, hs, hd⟩
    · rintro ⟨s, u, hs, hd⟩
      exact .endMarker hs hd
  · cases (hiff x).1 hx with
    | terminal ht _ _ => exact Or.inl ht
    | endMarker _ _ => exact Or.inr rfl

/-- A sentential form of a non-terminal that cannot be reached counts as well. -/
theorem mem_follow_of_unreachable :
    Catalog.new.freeze ["t"] ["S", "B", "C"] (some "S") =
        .ok (.frozen ["t"] ["S", "B", "C"] (some "S")) ∧
      ("t" : Name) ∈ (Grammar.analyse (.frozen ["t"] ["S", "B", "C"] (some "S"))
        [⟨"S", ["B"]⟩, ⟨"B", []⟩, ⟨"C", ["B", "t"]⟩]).follow.get "B" := by
  have hc : Catalog.new.freeze ["t"] ["S", "B", "C"] (some "S") =
      .ok (.frozen ["t"] ["S", "B", "C"] (some "S")) := by decide
  have hps : Catalog.checkProductions (.frozen ["t"] ["S", "B", "C"] (some "S"))
      [⟨"S", ["B"]⟩, ⟨"B", []⟩, ⟨"C", ["B", "t"]⟩] =
        .ok [⟨"S", ["B"]⟩, ⟨"B", []⟩, ⟨"C", ["B", "t"]⟩] := by decide
  refine ⟨hc, ?_⟩
  have h := Grammar.mem_follow_analyse hc hps (b := "B") (by decide)
  rw [h.1 "t" (by decide)]
  exact ⟨"C", by decide, [], [], .of_mem (p := ⟨"C", ["B", "t"]⟩) (by simp)⟩

end Lookahead
