import Lookahead.Proofs.Follow
import Mathlib.Order.Bounds.Defs

/-!
# The number of passes

Each of the three repetitions makes at most one pass more than there are non-terminals, in whatever
order the productions stand.

## 1. When a repetition stops

`saturate` stops when a pass uses up no room.  For what the analyses do this is the first pass that
adds nothing (`IsMeasured.isPrompt_saturate`); the passes that are counted are those before it and
the pass itself.

## 2. A chain that has stopped once

The number of members of a FIRST table may be as large as the number of non-terminals times that of
terminals, and so may the number of passes that the measure allows.  But seen at a single name `x`
there are only as many additions as there are non-terminals, and what a pass adds of `x` depends on
nothing but where `x` is already (`Table.LeAt`).  So once a pass adds no `x`, no later one does,
although it may add other names.  Hence all additions of `x` are made in the first passes, as many
as there are non-terminals (`below_iterate_succ`, `Table.iterate_succ_le`).  As this holds for
every `x`, the next pass adds nothing at all.

No derivation is counted: a pass that adds `x` somewhere uses up one of the non-terminals, however
far the productions take it.
-/

namespace Lookahead

/-! ## 1. When a repetition stops -/

section Rest

variable {σ ι : Type} [Preorder σ]

/-- The repetition of a pass makes the passes up to the first one that adds nothing, that one
included. -/
structure Saturated.IsPrompt (r : Saturated σ) (pass : σ → σ) (s : σ) : Prop where
  state_eq : r.state = pass^[r.passes] s
  isLeast : IsLeast {k | 0 < k ∧ pass^[k] s ≤ pass^[k - 1] s} r.passes

/-- If the pass with the number `k + 1` adds nothing, then no further pass is made. -/
theorem Saturated.IsPrompt.passes_le {r : Saturated σ} {pass : σ → σ} {s : σ}
    (h : r.IsPrompt pass s) {k : Nat} (hk : pass^[k + 1] s ≤ pass^[k] s) : r.passes ≤ k + 1 :=
  h.isLeast.2 ⟨Nat.succ_pos k, hk⟩

/-- One more pass in front. -/
theorem Saturated.IsPrompt.cons {r : Saturated σ} {pass : σ → σ} {s : σ}
    (h : r.IsPrompt pass (pass s)) (hs : ¬ pass s ≤ s) :
    Saturated.IsPrompt ⟨r.state, r.passes + 1⟩ pass s where
  state_eq := h.state_eq
  isLeast := by
    obtain ⟨⟨hpos, hidle⟩, hleast⟩ := h.isLeast
    obtain ⟨j, hj⟩ := Nat.exists_eq_add_of_lt hpos
    rw [Nat.zero_add] at hj
    refine ⟨⟨Nat.succ_pos _, ?_⟩, ?_⟩
    · show pass^[r.passes + 1] s ≤ pass^[r.passes] s
      rw [hj] at hidle ⊢
      exact hidle
    · rintro k ⟨hk, hle⟩
      obtain ⟨i, rfl⟩ := Nat.exists_eq_succ_of_ne_zero hk.ne'
      cases i with
      | zero => exact absurd hle hs
      | succ i => exact Nat.succ_le_succ (hleast ⟨Nat.succ_pos i, hle⟩)

/-- A repetition whose room tells whether a pass adds something stops at the first pass that adds
nothing. -/
theorem isPrompt_saturate {pass : σ → σ} {room : σ → Nat} {I : σ → Prop}
    (keep : ∀ s, I s → I (pass s))
    (hroom : ∀ s, I s → (room (pass s) < room s ↔ ¬ pass s ≤ s)) {s : σ} (hs : I s) :
    (saturate pass room s).IsPrompt pass s := by
  fun_induction saturate pass room s with
  | case1 s t hlt r ih => exact (ih (keep s hs)).cons ((hroom s hs).1 hlt)
  | case2 s t hlt =>
    have hle : pass s ≤ s := not_not.1 fun hle => hlt ((hroom s hs).2 hle)
    exact ⟨rfl, ⟨Nat.one_pos, hle⟩, fun k hk => hk.1⟩

/-- A repetition of measured passes stops at the first pass that adds nothing. -/
theorem IsMeasured.isPrompt_saturate {step : σ → ι → σ} {is : List ι} {size : σ → Nat}
    {bound : Nat} {I : σ → Prop} (hm : IsMeasured I size bound) (h : IsGrowing step)
    (keep : ∀ s, ∀ i ∈ is, I s → I (step s i)) {s : σ} (hs : I s) :
    (saturate (fun s => is.foldl step s) (fun s => bound - size s) s).IsPrompt
      (fun s => is.foldl step s) s :=
  Lookahead.isPrompt_saturate (fun _ hs => foldl_keeps keep hs)
    (fun _ hs => hm.room_lt_iff h keep hs) hs

end Rest

/-! ## 2. A chain that has stopped once -/

/-- If a pass that does not lead upwards is followed only by such passes, and leading upwards is
seen in a number that has a bound, then after as many passes as the bound says no pass leads
upwards. -/
theorem below_iterate_succ {σ : Type} {pass : σ → σ} {below : σ → σ → Prop} {count : σ → Nat}
    {bound : Nat} {s : σ} (grow : ∀ t, below t (pass t))
    (mono : ∀ t u, below t u → below (pass t) (pass u))
    (count_mono : ∀ t u, below t u → count t ≤ count u)
    (count_le : ∀ k, count (pass^[k] s) ≤ bound)
    (tight : ∀ k, count (pass^[k + 1] s) ≤ count (pass^[k] s) →
      below (pass^[k + 1] s) (pass^[k] s)) :
    below (pass^[bound + 1] s) (pass^[bound] s) := by
  have succ : ∀ k, pass^[k + 1] s = pass (pass^[k] s) := fun k =>
    Function.iterate_succ_apply' pass k s
  have grows : ∀ k, count (pass^[k] s) ≤ count (pass^[k + 1] s) := by
    intro k
    rw [succ]
    exact count_mono _ _ (grow _)
  have stays : ∀ k, count (pass^[k] s) = count (pass^[k + 1] s) →
      count (pass^[k + 1] s) = count (pass^[k + 2] s) := by
    intro k hk
    refine le_antisymm (grows (k + 1)) (count_mono _ _ ?_)
    have next := mono _ _ (tight k hk.ge)
    rwa [← succ (k + 1), ← succ k] at next
  have rest : count (pass^[bound + 1] s) = count (pass^[bound] s) :=
    Nat.stabilises_of_monotone (monotone_nat_of_le_succ grows) count_le stays (Nat.le_succ bound)
  exact tight bound rest.le

namespace Table

/-- Wherever the first table holds the name `x`, the second one does. -/
def LeAt (x : Name) (t u : Table) : Prop := ∀ n, x ∈ t.get n → x ∈ u.get n

theorem le_iff_forall_leAt {t u : Table} : t ≤ u ↔ ∀ x, LeAt x t u :=
  ⟨fun h x n hx => h n x hx, fun h n x hx => h x n hx⟩

theorem LeAt.add {x : Name} {t u : Table} (h : LeAt x t u) (n : Name) {s s' : NameSet}
    (hs : x ∈ s → x ∈ s') : LeAt x (t.add n s) (u.add n s') := by
  intro m hx
  by_cases hm : m = n
  · subst hm
    rw [get_add_self, NameSet.mem_union] at hx ⊢
    exact hx.imp (h m) hs
  · rw [get_add_of_ne hm] at hx ⊢
    exact h m hx

/-- Those of some names whose sets hold `x`. -/
def holders (t : Table) (ns : List Name) (x : Name) : NameSet := .ofList (ns.filter (x ∈ t.get ·))

@[simp] theorem mem_holders {t : Table} {ns : List Name} {n x : Name} :
    n ∈ t.holders ns x ↔ n ∈ ns ∧ x ∈ t.get n := by
  simp [holders]

theorem LeAt.holders_le {x : Name} {t u : Table} (h : LeAt x t u) (ns : List Name) :
    t.holders ns x ≤ u.holders ns x := by
  intro n hn
  rw [mem_holders] at hn ⊢
  exact ⟨hn.1, h n hn.2⟩

/-- A pass that treats every name by itself and adds nothing but at some of them comes to rest
within the number of these. -/
theorem iterate_succ_le {pass : Table → Table} {ns : List Name} {t : Table}
    (grow : ∀ u, u ≤ pass u) (mono : ∀ x u v, LeAt x u v → LeAt x (pass u) (pass v))
    (outside : ∀ k, ∀ n ∉ ns, (pass^[k + 1] t).get n ≤ (pass^[k] t).get n) :
    pass^[ns.length + 1] t ≤ pass^[ns.length] t := by
  rw [le_iff_forall_leAt]
  intro x
  have growAt : ∀ u, LeAt x u (pass u) := fun u => le_iff_forall_leAt.1 (grow u) x
  have holders_mono : ∀ u v : Table, LeAt x u v → (u.holders ns x).size ≤ (v.holders ns x).size :=
    fun u v h => NameSet.size_mono (h.holders_le ns)
  refine below_iterate_succ growAt (mono x) holders_mono (fun k => ?_) (fun k hk n hn => ?_)
  · exact NameSet.size_le_length fun n hn => (mem_holders.1 hn).1
  · by_cases hns : n ∈ ns
    · have hle : (pass^[k] t).holders ns x ≤ (pass^[k + 1] t).holders ns x := by
        rw [Function.iterate_succ_apply']
        exact (growAt _).holders_le ns
      have hn' := NameSet.le_of_size_le hle hk n (mem_holders.2 ⟨hns, hn⟩)
      exact (mem_holders.1 hn').2
    · exact outside k n hns x hn

end Table

/-! ## 3. The three repetitions -/

variable {c : Catalog} {ps : List Production} {nullable : NameSet} {first : Table}

/-- What every step keeps, any number of passes keep. -/
theorem iterate_foldl_keeps {σ ι : Type} {step : σ → ι → σ} {is : List ι} {I : σ → Prop}
    (keep : ∀ s, ∀ i ∈ is, I s → I (step s i)) {s : σ} (hs : I s) (k : Nat) :
    I ((fun s => is.foldl step s)^[k] s) := by
  induction k with
  | zero => exact hs
  | succ k ih =>
    rw [Function.iterate_succ_apply']
    exact foldl_keeps keep ih

theorem isPrompt_nullableRun (h : Checked c ps) :
    (nullableRun c ps).IsPrompt (nullablePass ps) ∅ :=
  (isMeasured_size c.nonterminals).isPrompt_saturate isGrowing_nullableStep
    (fun _ _ hp hs => mem_nonterminals_of_mem_nullableStep h hp hs)
    (fun n hn => absurd hn (NameSet.not_mem_empty n))

theorem nullablePass_iterate_succ_le (h : Checked c ps) :
    (nullablePass ps)^[c.nonterminals.length + 1] ∅ ≤
      (nullablePass ps)^[c.nonterminals.length] ∅ := by
  have hm := isMeasured_size c.nonterminals
  have keep : ∀ k, ∀ n ∈ (nullablePass ps)^[k] ∅, n ∈ c.nonterminals :=
    iterate_foldl_keeps (I := fun s : NameSet => ∀ n ∈ s, n ∈ c.nonterminals)
      (fun _ _ hp hs => mem_nonterminals_of_mem_nullableStep h hp hs)
      (fun n hn => absurd hn (NameSet.not_mem_empty n))
  have grow : ∀ s, s ≤ nullablePass ps s := isGrowing_nullableStep.le_foldl ps
  refine below_iterate_succ grow (fun s t hst => isGrowing_nullableStep.monotone_foldl ps hst)
    (fun s t hst => hm.mono hst) (fun k => hm.size_le _ (keep k)) fun k hk => ?_
  refine hm.tight _ _ (keep k) (keep (k + 1)) ?_ hk
  rw [Function.iterate_succ_apply']
  exact grow _

/-- FIRST of a sequence holds a name because of where the table holds it. -/
theorem Table.LeAt.mem_firstOfSequence {x : Name} {t u : Table} (h : LeAt x t u)
    (nullable : NameSet) {v : List Name} (hx : x ∈ (firstOfSequence t nullable v).1) :
    x ∈ (firstOfSequence u nullable v).1 := by
  induction v with
  | nil => exact hx
  | cons n v ih =>
    by_cases hn : n ∈ nullable
    · rw [firstOfSequence_cons_nullable hn, NameSet.mem_union] at hx ⊢
      exact hx.imp (h n) ih
    · rw [firstOfSequence_cons hn] at hx ⊢
      exact h n hx

theorem isPrompt_firstRun (h : Checked c ps) (nullable : NameSet) :
    (firstRun c ps nullable).IsPrompt (firstPass ps nullable) (initialFirst c) :=
  (isMeasured_firstBounded c).isPrompt_saturate (isGrowing_firstStep nullable)
    (fun _ _ hp hs => hs.firstStep h hp nullable) (firstBounded_initialFirst c)

theorem firstPass_iterate_succ_le (h : Checked c ps) (nullable : NameSet) :
    (firstPass ps nullable)^[c.nonterminals.length + 1] (initialFirst c) ≤
      (firstPass ps nullable)^[c.nonterminals.length] (initialFirst c) := by
  have keep : ∀ k, FirstBounded c ((firstPass ps nullable)^[k] (initialFirst c)) :=
    iterate_foldl_keeps (fun _ _ hp hs => hs.firstStep h hp nullable) (firstBounded_initialFirst c)
  refine Table.iterate_succ_le ((isGrowing_firstStep nullable).le_foldl ps) ?_ fun k n hn => ?_
  · intro x t u htu
    refine List.foldl_rel htu fun p _ t u htu => ?_
    exact htu.add p.lhs (htu.mem_firstOfSequence nullable)
  · rw [(keep (k + 1)).get_eq n hn, (keep k).get_eq n hn]

theorem isPrompt_followRun (h : Checked c ps) :
    (followRun c ps (firstTable c ps (nullableSet c ps)) (nullableSet c ps)).IsPrompt
      (followPass c ps (firstTable c ps (nullableSet c ps)) (nullableSet c ps))
      (initialFollow c) :=
  (isMeasured_followSound c ps).isPrompt_saturate (isGrowing_followStep c _ _)
    (fun _ _ hp hs => FollowSound.followStep h hs hp) (followSound_initialFollow h)

/-- What reading a production adds of a name depends on where the table holds that name. -/
theorem Table.LeAt.followStep {x : Name} {t u : Table} (h : LeAt x t u) {p : Production}
    (hp : ReadsTerminals c first nullable p.rhs) :
    LeAt x (followStep c first nullable t p) (followStep c first nullable u p) := by
  intro b hx
  rw [mem_followStep hp] at hx ⊢
  refine hx.imp (h b) ?_
  rintro ⟨before, after, hr, hb, hx⟩
  refine ⟨before, after, hr, hb, ?_⟩
  rw [mem_ahead] at hx ⊢
  exact hx.imp_right fun ⟨hnull, hx⟩ => ⟨hnull, h p.lhs hx⟩

theorem followPass_iterate_succ_le (h : Checked c ps) :
    (followPass c ps (firstTable c ps (nullableSet c ps)) (nullableSet c ps))^[
        c.nonterminals.length + 1] (initialFollow c) ≤
      (followPass c ps (firstTable c ps (nullableSet c ps)) (nullableSet c ps))^[
        c.nonterminals.length] (initialFollow c) := by
  have keep : ∀ k, FollowSound c ps ((followPass c ps (firstTable c ps (nullableSet c ps))
      (nullableSet c ps))^[k] (initialFollow c)) :=
    iterate_foldl_keeps (I := FollowSound c ps) (fun _ _ hp hs => FollowSound.followStep h hs hp)
      (followSound_initialFollow h)
  refine Table.iterate_succ_le ((isGrowing_followStep c _ _).le_foldl ps) ?_ fun k n hn x hx => ?_
  · intro x t u htu
    exact List.foldl_rel htu fun p hp t u htu => htu.followStep (readsTerminals_rhs h hp)
  · exact absurd (keep (k + 1) n x hx).1 hn

/-- **The repetitions end within the number of non-terminals.**  For productions accepted on a
frozen catalog, which lists every non-terminal once, each of the three repetitions stops with the
first pass that adds nothing, and makes at most one pass more than there are non-terminals. -/
theorem passes_le_length_nonterminals {ts ns : List Name} {start : Option Name}
    (hc : Catalog.new.freeze ts ns start = .ok c) (hps : c.checkProductions ps = .ok ps) :
    c.nonterminals.Nodup ∧
    ((nullableRun c ps).IsPrompt (nullablePass ps) ∅ ∧
      (nullableRun c ps).passes ≤ c.nonterminals.length + 1) ∧
    ((firstRun c ps (nullableSet c ps)).IsPrompt (firstPass ps (nullableSet c ps))
        (initialFirst c) ∧
      (firstRun c ps (nullableSet c ps)).passes ≤ c.nonterminals.length + 1) ∧
    ((followRun c ps (firstTable c ps (nullableSet c ps)) (nullableSet c ps)).IsPrompt
        (followPass c ps (firstTable c ps (nullableSet c ps)) (nullableSet c ps))
        (initialFollow c) ∧
      (followRun c ps (firstTable c ps (nullableSet c ps)) (nullableSet c ps)).passes ≤
        c.nonterminals.length + 1) := by
  have h : Checked c ps := .of_freeze hc hps
  have hnullable := isPrompt_nullableRun h
  have hfirst := isPrompt_firstRun h (nullableSet c ps)
  have hfollow := isPrompt_followRun h
  exact ⟨h.valid.nodup_nonterminals,
    ⟨hnullable, hnullable.passes_le (nullablePass_iterate_succ_le h)⟩,
    ⟨hfirst, hfirst.passes_le (firstPass_iterate_succ_le h _)⟩,
    ⟨hfollow, hfollow.passes_le (followPass_iterate_succ_le h)⟩⟩

/-- The productions of a chain, read from its wrong end: every pass gets one link further, and the
bound is met. -/
theorem passes_of_chain :
    let c : Catalog := .frozen ["a", "b"] ["S", "A", "B"] (some "S")
    let ps : List Production := [⟨"S", ["A"]⟩, ⟨"A", ["B"]⟩, ⟨"B", ["a", "b"]⟩]
    Catalog.new.freeze ["a", "b"] ["S", "A", "B"] (some "S") = .ok c ∧
      c.checkProductions ps = .ok ps ∧
      (firstRun c ps (nullableSet c ps)).IsPrompt (firstPass ps (nullableSet c ps))
        (initialFirst c) ∧
      (firstRun c ps (nullableSet c ps)).passes ≤ 4 ∧
      4 ≤ (firstRun c ps (nullableSet c ps)).passes := by
  intro c ps
  have hc : Catalog.new.freeze ["a", "b"] ["S", "A", "B"] (some "S") = .ok c := by decide
  have hps : c.checkProductions ps = .ok ps := by decide
  obtain ⟨-, -, ⟨hprompt, hle⟩, -⟩ := passes_le_length_nonterminals hc hps
  exact ⟨hc, hps, hprompt, hle, by decide +kernel⟩

end Lookahead
