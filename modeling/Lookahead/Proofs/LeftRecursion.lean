import Lookahead.Proofs.Director
import Lookahead.Proofs.Front

/-!
# Left recursion is a conflict

A name is **left recursive** if it comes back to the front of something that it derives.  If FIRST
of such a name is not empty, the grammar is not LL(1), but the conflict need not be at the name
itself.  In `A -> B A`, `B -> ε`, `B -> b` the recursion is hidden behind `B`, and `A` has only one
alternative; the conflict is that of `B`, which can be left out where `A`, and hence `b`, follows.

## 1. Cycles

A left recursive name has a production in which a left recursive name stands behind names that can
be left out, and derives the first name at its front again (`IsLeftRecursive.exists_production`).
Going on in this way one never leaves the left recursive names.

## 2. Names that can be left out

Fix a name `t` that tells the alternatives of every non-terminal apart (`Grammar.Separates`).  Then
no nullable name has `t` both in FIRST and in FOLLOW
(`Grammar.WellFormed.notMem_first_of_mem_follow`): the alternative that vanishes is taken on `t`
because of FOLLOW, so `t` can only be in FIRST of this same alternative, and one of its names has
`t` in both sets again.  Nullable names are found one after the other, and that name was found
earlier.

## 3. Names in a cycle

Then no left recursive name has `t` in FIRST
(`Grammar.WellFormed.notMem_first_of_isLeftRecursive`).  The table is built up in steps, and the
first step that gives `t` to a left recursive name reads some production of it.  On `t` one takes
this production and also the one that leads on in the cycle, so they are the same; but in the latter
`t` can come neither from the names in front of the next name in the cycle, nor from that name, nor
from what stands behind it.
-/

namespace Lookahead

variable {ps : List Production}

/-! ## 1. Cycles -/

/-- Whether the name comes back to the front of something that it derives. -/
def IsLeftRecursive (ps : List Production) (n : Name) : Prop :=
  ∃ v, DerivesProperly ps [n] (n :: v)

/-- What a sequence has at its front comes from one of its names, those before it being left out. -/
theorem Derives.exists_front {u v : List Name} {n : Name} (h : Derives ps u (n :: v)) :
    ∃ before m after, u = before ++ m :: after ∧ Derives ps before [] ∧
      ∃ w, Derives ps [m] (n :: w) := by
  induction u generalizing v with
  | nil => exact absurd (h.eq_of_forall_ne fun _ _ => List.not_mem_nil) (by simp)
  | cons m u ih =>
    obtain ⟨x, y, hxy, hx, hy⟩ := Derives.split (u := [m]) h
    cases x with
    | nil =>
      rw [List.nil_append] at hxy
      obtain ⟨before, k, after, rfl, hb, hk⟩ := ih (hxy ▸ hy)
      exact ⟨m :: before, k, after, rfl, hx.append hb, hk⟩
    | cons n' x =>
      obtain ⟨rfl, -⟩ := List.cons.inj hxy
      exact ⟨[], m, u, rfl, .refl [], x, hx⟩

/-- A left recursive name has a production in which, behind names that can be left out, a left
recursive name stands that has the first name at its front again. -/
theorem IsLeftRecursive.exists_production {n : Name} (h : IsLeftRecursive ps n) :
    ∃ before m after, (⟨n, before ++ m :: after⟩ : Production) ∈ ps ∧ Derives ps before [] ∧
      IsLeftRecursive ps m ∧ ∃ w, Derives ps [m] (n :: w) := by
  obtain ⟨v, hd⟩ := h
  obtain ⟨u, step, hu⟩ := Relation.TransGen.head'_iff.1 hd
  have hp : (⟨n, u⟩ : Production) ∈ ps := mem_rhssOf.1 step.mem_rhssOf
  obtain ⟨before, m, after, rfl, hb, w, hm⟩ := Derives.exists_front hu
  refine ⟨before, m, after, hp, hb, ⟨after ++ w, ?_⟩, w, hm⟩
  -- round the cycle, from the next name back to itself
  have back : Step ps (n :: w) (before ++ m :: after ++ w) := step.append_right w
  have vanish : Derives ps (before ++ m :: after ++ w) (m :: (after ++ w)) := by
    have hv := hb.append_right (m :: (after ++ w))
    rwa [List.append_assoc, List.cons_append]
  exact (Relation.TransGen.tail' hm back).trans_left vanish

/-- What the first name of a sequence starts with stands ahead. -/
theorem mem_ahead_cons_of_mem {first : Table} {nullable behind : NameSet} {n t : Name}
    (ht : t ∈ first.get n) (u : List Name) : t ∈ ahead first nullable behind (n :: u) := by
  by_cases hn : n ∈ nullable
  · rw [ahead_cons_nullable hn]
    exact NameSet.mem_union.2 (Or.inl ht)
  · rwa [ahead_cons hn]

/-- What a name starts with, every name starts with that can have it at its front. -/
theorem FirstClosed.get_le_of_derives {c : Catalog} {nullable : NameSet} {first : Table}
    (h : FirstClosed c ps nullable first) {m n : Name} {w : List Name}
    (hd : Derives ps [m] (n :: w)) : first.get n ≤ first.get m := by
  intro t ht
  have hn : t ∈ ahead first nullable ∅ (n :: w) := mem_ahead_cons_of_mem ht w
  rcases mem_ahead.1 (h.ahead_le_of_derives hd t hn) with hm | ⟨-, hm⟩
  · rwa [firstOfSequence_singleton] at hm
  · exact absurd hm (NameSet.not_mem_empty t)

namespace Grammar

variable {g : Grammar} {t : Name}

/-! ## 2. Names that can be left out -/

/-- Whether the name tells the alternatives of every non-terminal apart. -/
def Separates (g : Grammar) (t : Name) : Prop :=
  ∀ n, ∀ a ∈ alternativesOf g.productions n, ∀ b ∈ alternativesOf g.productions n,
    t ∈ g.directorOf a → t ∈ g.directorOf b → a = b

/-- A name that does not is in the overlap of a conflict. -/
theorem WellFormed.exists_conflict_of_not_separates (h : g.WellFormed) (ht : ¬ g.Separates t) :
    ∃ d ∈ g.conflicts, t ∈ d.overlap := by
  simp only [Separates, not_forall] at ht
  obtain ⟨n, a, ha, b, hb, hta, htb, hab⟩ := ht
  have hn := h.checked.mem_nonterminals_of_alternative ha
  rcases pair_sublist_or ha hb hab with hs | hs
  · exact ⟨_, h.mem_conflicts.2 ⟨n, hn, a, b, hs, ⟨t, hta, htb⟩, rfl⟩,
      NameSet.mem_inter.2 ⟨hta, htb⟩⟩
  · exact ⟨_, h.mem_conflicts.2 ⟨n, hn, b, a, hs, ⟨t, htb, hta⟩, rfl⟩,
      NameSet.mem_inter.2 ⟨htb, hta⟩⟩

/-- At most one right-hand side of a name is taken on a name that separates. -/
theorem Separates.rhs_eq (ht : g.Separates t) {n : Name} {u v : List Name}
    (hu : ⟨n, u⟩ ∈ g.productions) (hv : ⟨n, v⟩ ∈ g.productions)
    (htu : t ∈ ahead g.first g.nullable (g.follow.get n) u)
    (htv : t ∈ ahead g.first g.nullable (g.follow.get n) v) : u = v := by
  obtain ⟨a, ha, hla, hra⟩ := exists_mem_alternativesOf hu
  obtain ⟨b, hb, hlb, hrb⟩ := exists_mem_alternativesOf hv
  dsimp only at hla hra hlb hrb
  subst hra hrb
  have hab : a = b := by
    refine ht n a ha b hb ?_ ?_
    · rwa [directorOf, directorSet_eq_ahead, hla]
    · rwa [directorOf, directorSet_eq_ahead, hlb]
  rw [hab]

/-- In a production, what can stand ahead of the part behind a nullable name follows that name. -/
theorem WellFormed.mem_follow_of_mem_ahead (h : g.WellFormed) {n m : Name}
    {before after : List Name} (hp : ⟨n, before ++ m :: after⟩ ∈ g.productions)
    (hm : m ∈ g.nullable) (ht : t ∈ ahead g.first g.nullable (g.follow.get n) after) :
    t ∈ g.follow.get m := by
  have hnt : m ∈ g.catalog.nonterminals := by
    rw [h.tables] at hm
    exact mem_nonterminals_of_mem_nullableSet h.checked hm
  exact h.followClosed.covers_rhs _ hp before m after rfl hnt t ht

/-- FIRST of a name comes from one of its right-hand sides. -/
theorem WellFormed.exists_rhs_of_mem_first (h : g.WellFormed) {n : Name}
    (hn : n ∈ g.catalog.nonterminals) (ht : t ∈ g.first.get n) :
    ∃ u, ⟨n, u⟩ ∈ g.productions ∧ t ∈ (firstOfSequence g.first g.nullable u).1 := by
  have hterm : n ∉ g.catalog.terminals := fun hmem => h.valid.disjoint n hmem hn
  have hfront : front g.first g.nullable n =
      firstOfChoice g.first g.nullable (rhssOf g.productions n) := by
    rw [h.tables]
    exact front_firstTable h.checked hterm
  have hmem : t ∈ (front g.first g.nullable n).1 := ht
  rw [hfront, mem_firstOfChoice] at hmem
  obtain ⟨u, hu, htu⟩ := hmem
  exact ⟨u, mem_rhssOf.1 hu, htu⟩

/-- A nullable name has no name both in FIRST and in FOLLOW that separates. -/
theorem WellFormed.notMem_first_of_mem_follow (h : g.WellFormed) (ht : g.Separates t) :
    ∀ n ∈ g.nullable, t ∈ g.follow.get n → t ∉ g.first.get n := by
  suffices ∀ n ∈ nullableSet g.catalog g.productions,
      n ∈ g.nullable ∧ (t ∈ g.follow.get n → t ∉ g.first.get n) by
    intro n hn
    rw [h.tables] at hn
    exact (this n hn).2
  refine saturate_foldl_induction (I := fun s : NameSet => ∀ n ∈ s,
    n ∈ g.nullable ∧ (t ∈ g.follow.get n → t ∉ g.first.get n)) ?_ ?_
  · intro s p hp hs n hn
    rcases mem_nullableStep hn with hn | ⟨rfl, hr⟩
    · exact hs n hn
    have hrhs : ∀ m ∈ p.rhs, m ∈ g.nullable := fun m hm => (hs m (hr m hm)).1
    refine ⟨h.firstClosed.lhs_mem p hp hrhs, fun hfollow hfirst => ?_⟩
    -- the only alternative taken on `t` is the one that vanishes
    obtain ⟨u, hu, htu⟩ := h.exists_rhs_of_mem_first (h.checked.lhs_mem hp) hfirst
    obtain rfl : u = p.rhs :=
      ht.rhs_eq hu hp (mem_ahead.2 (Or.inl htu)) (mem_ahead.2 (Or.inr ⟨hrhs, hfollow⟩))
    obtain ⟨m, hm, htm⟩ := exists_mem_of_mem_firstOfSequence htu
    obtain ⟨before, after, heq⟩ := List.append_of_mem hm
    have hafter : ∀ k ∈ after, k ∈ g.nullable := fun k hk => hrhs k (by simp [heq, hk])
    have hpm : ⟨p.lhs, before ++ m :: after⟩ ∈ g.productions := by rwa [← heq]
    have hfollowm : t ∈ g.follow.get m :=
      h.mem_follow_of_mem_ahead hpm (hrhs m hm) (mem_ahead.2 (Or.inr ⟨hafter, hfollow⟩))
    exact (hs m (hr m hm)).2 hfollowm htm
  · exact fun n hn => absurd hn (NameSet.not_mem_empty n)

/-! ## 3. Names in a cycle -/

/-- In a production that leads on in a cycle, a name that separates starts neither what stands in
front of the next name in the cycle nor, if that one can be left out, what stands behind it. -/
theorem WellFormed.notMem_firstOfSequence_of_cycle (h : g.WellFormed) (ht : g.Separates t)
    {n m : Name} {before after : List Name} (hp : ⟨n, before ++ m :: after⟩ ∈ g.productions)
    (hbefore : ∀ k ∈ before, k ∈ g.nullable) (hm : t ∈ g.first.get m) :
    t ∉ (firstOfSequence g.first g.nullable before).1 ∧
      (m ∈ g.nullable → t ∉ (firstOfSequence g.first g.nullable after).1) := by
  constructor
  · intro htb
    obtain ⟨k, hk, htk⟩ := exists_mem_of_mem_firstOfSequence htb
    obtain ⟨left, right, rfl⟩ := List.append_of_mem hk
    have hright : ∀ j ∈ right, j ∈ g.nullable := fun j hj => hbefore j (by simp [hj])
    -- the next name in the cycle stands behind `k`, with nothing between that has to stay
    have hahead : t ∈ ahead g.first g.nullable (g.follow.get n) (right ++ m :: after) := by
      rw [ahead_append]
      exact mem_ahead.2 (Or.inr ⟨hright, mem_ahead_cons_of_mem hm after⟩)
    rw [List.append_assoc, List.cons_append] at hp
    exact h.notMem_first_of_mem_follow ht k (hbefore k hk)
      (h.mem_follow_of_mem_ahead hp (hbefore k hk) hahead) htk
  · intro hnull hta
    exact h.notMem_first_of_mem_follow ht m hnull
      (h.mem_follow_of_mem_ahead hp hnull (mem_ahead.2 (Or.inl hta))) hm

/-- While no left recursive name has been given a name that separates, no production of a left
recursive name starts with it. -/
theorem WellFormed.notMem_firstOfSequence_of_isLeftRecursive (h : g.WellFormed)
    (ht : g.Separates t) {first : Table} (hle : first ≤ g.first)
    (hno : ∀ n, IsLeftRecursive g.productions n → t ∉ first.get n) {p : Production}
    (hp : p ∈ g.productions) (hn : IsLeftRecursive g.productions p.lhs) :
    t ∉ (firstOfSequence first g.nullable p.rhs).1 := by
  intro htp
  have hle' := firstOfSequence_mono hle g.nullable
  obtain ⟨before, m, after, hq, hb, hm, w, hmw⟩ := hn.exists_production
  have hbefore : ∀ k ∈ before, k ∈ g.nullable := by
    rw [h.tables]
    exact mem_nullableSet_of_derives_nil h.checked hb
  have htm : t ∈ g.first.get m :=
    h.firstClosed.get_le_of_derives hmw t (h.firstClosed.rhs_le p hp t (hle' p.rhs t htp))
  -- both productions are taken on `t`
  have heq : p.rhs = before ++ m :: after := by
    refine ht.rhs_eq hp hq (mem_ahead.2 (Or.inl (hle' p.rhs t htp))) ?_
    rw [ahead_append]
    exact mem_ahead.2 (Or.inr ⟨hbefore, mem_ahead_cons_of_mem htm after⟩)
  obtain ⟨htb, hta⟩ := h.notMem_firstOfSequence_of_cycle ht hq hbefore htm
  rw [heq, firstOfSequence_append, firstOfSequence_cons_eq] at htp
  rcases Front.mem_append.1 htp with htp | ⟨-, htp⟩
  · exact htb (hle' before t htp)
  · rcases Front.mem_append.1 htp with htp | ⟨hnull, htp⟩
    · exact hno m hm htp
    · exact hta (by simpa [front] using hnull) (hle' after t htp)

/-- A name that separates is in FIRST of no left recursive name. -/
theorem WellFormed.notMem_first_of_isLeftRecursive (h : g.WellFormed) (ht : g.Separates t)
    {n : Name} (hn : IsLeftRecursive g.productions n) : t ∉ g.first.get n := by
  have hfirst : g.first = firstTable g.catalog g.productions g.nullable := by
    rw [h.tables]
    rfl
  suffices hinv : firstTable g.catalog g.productions g.nullable ≤ g.first ∧
      ∀ n, IsLeftRecursive g.productions n →
        t ∉ (firstTable g.catalog g.productions g.nullable).get n by
    rw [hfirst]
    exact hinv.2 n hn
  refine saturate_foldl_induction (I := fun first : Table => first ≤ g.first ∧
    ∀ n, IsLeftRecursive g.productions n → t ∉ first.get n) ?_ ⟨fun n x hx => ?_, fun n hn => ?_⟩
  · rintro first p hp ⟨hle, hno⟩
    have hrhs := firstOfSequence_mono hle g.nullable p.rhs
    refine ⟨Table.add_le_iff.2 ⟨hle, hrhs.trans (h.firstClosed.rhs_le p hp)⟩, fun n hn htn => ?_⟩
    rw [firstStep, Table.get_add] at htn
    split at htn
    · rename_i heq
      subst heq
      rcases NameSet.mem_union.1 htn with htn | htn
      · exact hno p.lhs hn htn
      · exact h.notMem_firstOfSequence_of_isLeftRecursive ht hle hno hp hn htn
    · exact hno n hn htn
  · obtain ⟨hn, rfl⟩ := (get_initialFirst _).1 hx
    exact h.firstClosed.mem_terminal _ hn
  · intro htn
    obtain ⟨before, m, after, hp, -⟩ := hn.exists_production
    exact h.checked.lhs_notMem hp ((get_initialFirst _).1 htn).1

/-- **Left recursion is a conflict.**  In a constructed grammar, take a non-terminal that derives a
sequence with itself at the front, in any way, in at least one step.  If its FIRST set is not empty,
then the grammar is not LL(1); indeed, every name in the set is in the overlap of a conflict. -/
theorem exists_conflict_of_leftRecursion (h : g.IsConstructed) {n : Name} {v : List Name}
    (hd : DerivesProperly g.productions [n] (n :: v)) (hn : (g.first.get n).isEmpty = false) :
    g.isLL1 = false ∧ g.conflicts ≠ [] ∧
      ∀ t ∈ g.first.get n, ∃ d ∈ g.conflicts, t ∈ d.overlap := by
  have hg := h.wellFormed
  have hoverlap : ∀ t ∈ g.first.get n, ∃ d ∈ g.conflicts, t ∈ d.overlap := by
    intro t ht
    refine hg.exists_conflict_of_not_separates fun hs => ?_
    exact hg.notMem_first_of_isLeftRecursive hs ⟨v, hd⟩ ht
  obtain ⟨t, ht⟩ : ∃ t, t ∈ g.first.get n := by
    by_contra hno
    rw [NameSet.isEmpty_iff.2 fun t ht => hno ⟨t, ht⟩] at hn
    cases hn
  obtain ⟨d, hmem, -⟩ := hoverlap t ht
  have hne : g.conflicts ≠ [] := List.ne_nil_of_mem hmem
  exact ⟨by simpa [isLL1] using hne, hne, hoverlap⟩

/-- The recursion of `A` is hidden behind `B`, and the only conflict is that of `B`. -/
theorem exists_conflict_of_hiddenRecursion :
    ∃ g, plain ["b"] ["A", "B"] [⟨"A", ["B", "A"]⟩, ⟨"B", []⟩, ⟨"B", ["b"]⟩] (some "A") = .ok g ∧
      DerivesProperly g.productions ["A"] ["A"] ∧ (g.first.get "A").isEmpty = false ∧
      g.isLL1 = false ∧ g.conflicts ≠ [] ∧
      ∀ t ∈ g.first.get "A", ∃ d ∈ g.conflicts, t ∈ d.overlap := by
  let ps : List Production := [⟨"A", ["B", "A"]⟩, ⟨"B", []⟩, ⟨"B", ["b"]⟩]
  have hg : plain ["b"] ["A", "B"] ps (some "A") =
      .ok (analyse (.frozen ["b"] ["A", "B"] (some "A")) ps) := rfl
  have hA : Step ps ["A"] ["B", "A"] := .mk (p := ⟨"A", ["B", "A"]⟩) (by decide) [] []
  have hB : Step ps ["B", "A"] ["A"] := .mk (p := ⟨"B", []⟩) (by decide) [] ["A"]
  have hd : DerivesProperly ps ["A"] ["A"] := .tail (.single hA) hB
  have hn : ((analyse (.frozen ["b"] ["A", "B"] (some "A")) ps).first.get "A").isEmpty = false := by
    decide +kernel
  exact ⟨_, hg, hd, hn, exists_conflict_of_leftRecursion ⟨_, _, _, _, Or.inl hg⟩ hd hn⟩

end Grammar

end Lookahead
