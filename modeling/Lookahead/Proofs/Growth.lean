import Lookahead.Analysis.Nullable
import Lookahead.Analysis.Table
import Mathlib.Data.List.Perm.Subperm
import Mathlib.Order.Monotone.Basic

/-!
# Passes that only add

All three analyses work alike.  A **step** reads one production and adds to what is known; a pass
folds the step over the productions; passes are repeated until nothing is added.  What the result
satisfies can be said once for all of them.

## 1. Steps

A step **grows** if it never takes anything away and, given more, never gives less.  These two
properties are all that is used of a step.  In particular nothing depends on the order of the
productions: a step that comes late in a pass sees what the earlier ones added, and by the second
property it can only do better for it.

## 2. Rest

`saturate` stops when a pass uses up no room.  For a bounded measure that tells a state from every
greater one (`IsMeasured`) this means that the pass added nothing, and then no single step adds
anything either: the result is **closed** under every step (`step_saturate_le`).  What every step
keeps, the result has (`saturate_foldl_induction`).  Closedness says that enough is found, an
invariant that not too much is.

## 3. Sets and tables

Sets of names are ordered by inclusion, tables by inclusion at every name, and the measure is the
number of members.
-/

namespace Lookahead

/-! ## 1. Steps -/

section Steps

variable {σ ι : Type} [Preorder σ] {step : σ → ι → σ}

/-- A step that takes nothing away and does not give less when it is given more. -/
structure IsGrowing (step : σ → ι → σ) : Prop where
  le : ∀ s i, s ≤ step s i
  mono : ∀ i, Monotone fun s => step s i

namespace IsGrowing

theorem le_foldl (h : IsGrowing step) (is : List ι) (s : σ) : s ≤ is.foldl step s := by
  induction is generalizing s with
  | nil => exact le_rfl
  | cons i is ih => exact (h.le s i).trans (ih (step s i))

theorem monotone_foldl (h : IsGrowing step) (is : List ι) :
    Monotone fun s => is.foldl step s := by
  induction is with
  | nil => exact monotone_id
  | cons i is ih => exact fun s t hst => ih (h.mono i hst)

/-- A pass adds at least what each of its steps would have added at the beginning. -/
theorem step_le_foldl (h : IsGrowing step) {is : List ι} {i : ι} (hi : i ∈ is) (s : σ) :
    step s i ≤ is.foldl step s := by
  induction is generalizing s with
  | nil => exact absurd hi List.not_mem_nil
  | cons j is ih =>
    rcases List.mem_cons.1 hi with rfl | hi
    · exact h.le_foldl is (step s i)
    · exact (h.mono i (h.le s j)).trans (ih hi (step s j))

end IsGrowing

/-! ## 2. Rest -/

omit [Preorder σ] in
/-- What every step keeps, a pass keeps. -/
theorem foldl_keeps {is : List ι} {I : σ → Prop} (keep : ∀ s, ∀ i ∈ is, I s → I (step s i)) {s : σ}
    (hs : I s) : I (is.foldl step s) :=
  List.foldlRecOn is step hs fun t ht i hi => keep t i hi ht

omit [Preorder σ] in
/-- What every step keeps, the repeated passes keep. -/
theorem saturate_foldl_induction {room : σ → Nat} {is : List ι} {I : σ → Prop}
    (keep : ∀ s, ∀ i ∈ is, I s → I (step s i)) {s : σ} (hs : I s) :
    I (saturate (fun s => is.foldl step s) room s).state :=
  saturate_induction (fun _ hs => foldl_keeps keep hs) s hs

/-- The states that satisfy `I` have at most `bound` members, and each is told from a greater one by
their number. -/
structure IsMeasured (I : σ → Prop) (size : σ → Nat) (bound : Nat) : Prop where
  mono : Monotone size
  size_le : ∀ s, I s → size s ≤ bound
  tight : ∀ s t, I s → I t → s ≤ t → size t ≤ size s → t ≤ s

/-- A pass uses up room exactly if it adds something. -/
theorem IsMeasured.room_lt_iff {is : List ι} {size : σ → Nat} {bound : Nat} {I : σ → Prop}
    (hm : IsMeasured I size bound) (h : IsGrowing step)
    (keep : ∀ s, ∀ i ∈ is, I s → I (step s i)) {s : σ} (hs : I s) :
    bound - size (is.foldl step s) < bound - size s ↔ ¬ is.foldl step s ≤ s := by
  have hbound := hm.size_le _ (foldl_keeps keep hs)
  constructor
  · intro hroom hle
    have := hm.mono hle
    omega
  · intro hle
    by_contra hroom
    exact hle (hm.tight s _ hs (foldl_keeps keep hs) (h.le_foldl is s) (by omega))

/-- **Closedness.**  If the states that can occur are measured, then no step adds anything to the
result. -/
theorem step_saturate_le (h : IsGrowing step) {is : List ι} {size : σ → Nat} {bound : Nat}
    {I : σ → Prop} (hm : IsMeasured I size bound) (keep : ∀ s, ∀ i ∈ is, I s → I (step s i)) {s : σ}
    (hs : I s) {i : ι} (hi : i ∈ is) :
    step (saturate (fun s => is.foldl step s) (fun s => bound - size s) s).state i ≤
      (saturate (fun s => is.foldl step s) (fun s => bound - size s) s).state := by
  suffices ∀ r, I r → is.foldl step (saturate (fun s => is.foldl step s)
      (fun s => bound - size s) r).state ≤
        (saturate (fun s => is.foldl step s) (fun s => bound - size s) r).state from
    (h.step_le_foldl hi _).trans (this s hs)
  intro r hr
  fun_induction saturate (fun s => is.foldl step s) (fun s => bound - size s) r with
  | case1 s t _ r ih => exact ih (foldl_keeps keep hr)
  | case2 s t hroom =>
    -- no room was used, so the last pass added nothing, and neither does one more
    have hle : t ≤ s := not_not.1 fun hle => hroom ((hm.room_lt_iff h keep hr).2 hle)
    exact h.monotone_foldl is hle

end Steps

/-! ## 3. Sets -/

namespace NameSet

instance : PartialOrder NameSet where
  le s t := ∀ n ∈ s, n ∈ t
  le_refl _ _ hn := hn
  le_trans _ _ _ hst htu n hn := htu n (hst n hn)
  le_antisymm _ _ hst hts := ext fun n => ⟨hst n, hts n⟩

theorem le_union_left (s t : NameSet) : s ≤ s ∪ t := fun _ hn => mem_union.2 (Or.inl hn)

theorem le_union_right (s t : NameSet) : t ≤ s ∪ t := fun _ hn => mem_union.2 (Or.inr hn)

theorem union_le {s t u : NameSet} (hs : s ≤ u) (ht : t ≤ u) : s ∪ t ≤ u := fun n hn =>
  (mem_union.1 hn).elim (hs n) (ht n)

theorem union_le_union {s t s' t' : NameSet} (hs : s ≤ s') (ht : t ≤ t') : s ∪ t ≤ s' ∪ t' :=
  union_le (hs.trans (le_union_left s' t')) (ht.trans (le_union_right s' t'))

/-- A set has at most as many members as a list that holds them all. -/
theorem size_le_length {s : NameSet} {ns : List Name} (h : ∀ n ∈ s, n ∈ ns) :
    s.size ≤ ns.length :=
  (List.subperm_of_subset s.nodup h).length_le

theorem size_mono {s t : NameSet} (h : s ≤ t) : s.size ≤ t.size := size_le_length h

/-- A set is told from a greater one by the number of its members. -/
theorem le_of_size_le {s t : NameSet} (h : s ≤ t) (hsize : t.size ≤ s.size) : t ≤ s :=
  ((List.subperm_of_subset s.nodup h).perm_of_length_le hsize).symm.subset

end NameSet

/-! ## 4. Tables -/

namespace Table

instance : Preorder Table where
  le t u := ∀ n, t.get n ≤ u.get n
  le_refl _ _ := le_rfl
  le_trans _ _ _ htu huv n := (htu n).trans (huv n)

/-- A table is below another when it was before something was added and what was added is. -/
theorem add_le_iff {t u : Table} {n : Name} {s : NameSet} :
    t.add n s ≤ u ↔ t ≤ u ∧ s ≤ u.get n := by
  constructor
  · intro h
    refine ⟨fun m => ?_, ?_⟩
    · have hm := h m
      rw [get_add] at hm
      split at hm
      · rename_i e
        rw [e] at hm ⊢
        exact (NameSet.le_union_left _ s).trans hm
      · exact hm
    · have hn := h n
      rw [get_add_self] at hn
      exact (NameSet.le_union_right _ s).trans hn
  · rintro ⟨htu, hs⟩ m
    rw [get_add]
    split
    · rename_i e
      rw [e]
      exact NameSet.union_le (htu n) hs
    · exact htu m

theorem le_add (t : Table) (n : Name) (s : NameSet) : t ≤ t.add n s := (add_le_iff.1 le_rfl).1

theorem le_get_add (t : Table) (n : Name) (s : NameSet) : s ≤ (t.add n s).get n :=
  (add_le_iff.1 le_rfl).2

theorem add_mono {t u : Table} (h : t ≤ u) (n : Name) {s s' : NameSet} (hs : s ≤ s') :
    t.add n s ≤ u.add n s' :=
  add_le_iff.2 ⟨h.trans (le_add u n s'), hs.trans (le_get_add u n s')⟩

theorem sizeOver_cons (t : Table) (n : Name) (ns : List Name) :
    t.sizeOver (n :: ns) = (t.get n).size + t.sizeOver ns := rfl

theorem sizeOver_mono {t u : Table} (h : t ≤ u) (ns : List Name) :
    t.sizeOver ns ≤ u.sizeOver ns := by
  induction ns with
  | nil => exact le_rfl
  | cons n ns ih =>
    rw [sizeOver_cons, sizeOver_cons]
    exact Nat.add_le_add (NameSet.size_mono (h n)) ih

theorem sizeOver_le {t : Table} {ns : List Name} {k : Nat}
    (h : ∀ n ∈ ns, (t.get n).size ≤ k) : t.sizeOver ns ≤ ns.length * k := by
  induction ns with
  | nil => exact Nat.zero_le _
  | cons n ns ih =>
    rw [sizeOver_cons, List.length_cons, Nat.succ_mul, Nat.add_comm]
    exact Nat.add_le_add (ih fun m hm => h m (List.mem_cons_of_mem n hm))
      (h n List.mem_cons_self)

/-- At the names that are counted, a table is told from a greater one by the number of members. -/
theorem get_le_of_sizeOver_le {t u : Table} (h : t ≤ u) {ns : List Name}
    (hsize : u.sizeOver ns ≤ t.sizeOver ns) : ∀ n ∈ ns, u.get n ≤ t.get n := by
  induction ns with
  | nil => exact fun n hn => absurd hn List.not_mem_nil
  | cons m ns ih =>
    rw [sizeOver_cons, sizeOver_cons] at hsize
    have hm := NameSet.size_mono (h m)
    have hns := sizeOver_mono h ns
    intro n hn
    rcases List.mem_cons.1 hn with rfl | hn
    · exact NameSet.le_of_size_le (h n) (by omega)
    · exact ih (by omega) n hn

end Table

end Lookahead
