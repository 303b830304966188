import Lookahead.Symbol

/-!
# Finite sets of names

The analyses compute with finite sets of names, and every set that is shown is shown in the order
of its code points.  A `NameSet` is therefore kept as the strictly ascending list of its members.
Two sets with the same members are the same list, so they are equal (`NameSet.ext`): a statement
about sets is a statement about membership, and the list is seen only by what prints it.

## What is here

* `union`, `insert` and `inter`, with one membership lemma each;
* `ext`: sets are equal when they have the same members;
* `size`, which counts the members, as the list has no repetition (`nodup`).
-/

namespace Lookahead

/-- A finite set of names, kept as its members in ascending order. -/
structure NameSet where
  toList : List Name
  ascending : toList.Pairwise (· < ·)
deriving DecidableEq

namespace NameSet

/-! ## 1. Members -/

instance : Membership Name NameSet := ⟨fun s n => n ∈ s.toList⟩

theorem mem_def {n : Name} {s : NameSet} : n ∈ s ↔ n ∈ s.toList := Iff.rfl

instance (n : Name) (s : NameSet) : Decidable (n ∈ s) :=
  inferInstanceAs (Decidable (n ∈ s.toList))

theorem nodup (s : NameSet) : s.toList.Nodup :=
  s.ascending.imp fun {_ _} h => by rintro rfl; exact Text.lt_irrefl _ h

/-- The number of members. -/
def size (s : NameSet) : Nat := s.toList.length

/-- The set without members. -/
def empty : NameSet := ⟨[], .nil⟩

instance : EmptyCollection NameSet := ⟨empty⟩

instance : Inhabited NameSet := ⟨∅⟩

@[simp] theorem not_mem_empty (n : Name) : n ∉ (∅ : NameSet) := List.not_mem_nil

@[simp] theorem toList_empty : (∅ : NameSet).toList = [] := rfl

/-- Whether the set has no member. -/
def isEmpty (s : NameSet) : Bool := s.toList.isEmpty

theorem isEmpty_iff {s : NameSet} : s.isEmpty = true ↔ ∀ n, n ∉ s := by
  simp [isEmpty, List.eq_nil_iff_forall_not_mem, mem_def]

/-! ## 2. Insertion and union -/

/-- Puts a name at its place in an ascending list, unless it stands there already; what comes
behind it is handed on to `rest`. -/
def place (n : Name) (rest : List Name → List Name) : List Name → List Name
  | [] => n :: rest []
  | m :: ms =>
    if n < m then n :: rest (m :: ms) else if n = m then n :: rest ms else m :: place n rest ms

/-- Two ascending lists in one. -/
def merge (ns : List Name) : List Name → List Name := ns.foldr place id

@[simp] theorem merge_nil (ms : List Name) : merge [] ms = ms := rfl

theorem merge_cons (n : Name) (ns ms : List Name) :
    merge (n :: ns) ms = place n (merge ns) ms := rfl

theorem mem_place {x n : Name} {rest : List Name → List Name} {P : Prop}
    (h : ∀ ms, x ∈ rest ms ↔ P ∨ x ∈ ms) (ms : List Name) :
    x ∈ place n rest ms ↔ x = n ∨ P ∨ x ∈ ms := by
  induction ms with
  | nil => simp [place, h]
  | cons m ms ih =>
    by_cases h₁ : n < m
    · simp [place, h₁, h]
    · by_cases h₂ : n = m
      · subst h₂
        simp only [place, h₁, if_false, if_true, List.mem_cons, h]
        grind
      · simp only [place, h₁, h₂, if_false, List.mem_cons, ih]
        grind

@[simp] theorem mem_merge {x : Name} {ns ms : List Name} :
    x ∈ merge ns ms ↔ x ∈ ns ∨ x ∈ ms := by
  induction ns generalizing ms with
  | nil => simp
  | cons n ns ih => rw [merge_cons, mem_place (fun ms => ih), List.mem_cons, or_assoc]

theorem pairwise_place {n : Name} {ns ms : List Name} (hn : ∀ x ∈ ns, n < x)
    (ih : ∀ {ms : List Name}, ms.Pairwise (· < ·) → (merge ns ms).Pairwise (· < ·))
    (h : ms.Pairwise (· < ·)) : (place n (merge ns) ms).Pairwise (· < ·) := by
  induction ms with
  | nil =>
    refine .cons (fun x hx => ?_) (ih .nil)
    rcases mem_merge.1 hx with hx | hx
    · exact hn x hx
    · exact absurd hx List.not_mem_nil
  | cons m ms ihms =>
    have hm := List.pairwise_cons.1 h
    by_cases h₁ : n < m
    · rw [place, if_pos h₁]
      refine .cons (fun x hx => ?_) (ih h)
      rcases mem_merge.1 hx with hx | hx
      · exact hn x hx
      · rcases List.mem_cons.1 hx with rfl | hx
        · exact h₁
        · exact Text.lt_trans h₁ (hm.1 x hx)
    · by_cases h₂ : n = m
      · rw [place, if_neg h₁, if_pos h₂]
        refine .cons (fun x hx => ?_) (ih hm.2)
        rcases mem_merge.1 hx with hx | hx
        · exact hn x hx
        · exact h₂ ▸ hm.1 x hx
      · have h₃ : m < n := ((Text.lt_trichotomy n m).resolve_left h₁).resolve_left h₂
        rw [place, if_neg h₁, if_neg h₂]
        refine .cons (fun x hx => ?_) (ihms hm.2)
        rcases (mem_place (P := x ∈ ns) (fun _ => mem_merge) ms).1 hx with rfl | hx | hx
        · exact h₃
        · exact Text.lt_trans h₃ (hn x hx)
        · exact hm.1 x hx

theorem pairwise_merge {ns ms : List Name} (hns : ns.Pairwise (· < ·))
    (h : ms.Pairwise (· < ·)) : (merge ns ms).Pairwise (· < ·) := by
  induction ns generalizing ms with
  | nil => exact h
  | cons n ns ih =>
    rw [List.pairwise_cons] at hns
    exact pairwise_place hns.1 (ih hns.2) h

/-- The names in either set. -/
def union (s t : NameSet) : NameSet :=
  ⟨merge s.toList t.toList, pairwise_merge s.ascending t.ascending⟩

instance : Union NameSet := ⟨union⟩

@[simp] theorem mem_union {x : Name} {s t : NameSet} : x ∈ s ∪ t ↔ x ∈ s ∨ x ∈ t := mem_merge

/-- The set with one member. -/
def singleton (n : Name) : NameSet := ⟨[n], .cons (fun _ h => absurd h List.not_mem_nil) .nil⟩

@[simp] theorem mem_singleton {x n : Name} : x ∈ singleton n ↔ x = n := List.mem_singleton

/-- The set with one more member. -/
def insert (n : Name) (s : NameSet) : NameSet := singleton n ∪ s

@[simp] theorem mem_insert {x n : Name} {s : NameSet} : x ∈ s.insert n ↔ x = n ∨ x ∈ s := by
  simp [insert]

/-- The set of the names in a list. -/
def ofList (ns : List Name) : NameSet := ns.foldr insert ∅

@[simp] theorem mem_ofList {x : Name} {ns : List Name} : x ∈ ofList ns ↔ x ∈ ns := by
  induction ns with
  | nil => simp [ofList]
  | cons n ns ih => simpa [ofList] using or_congr_right ih

/-! ## 3. Intersection -/

/-- The names in both sets. -/
def inter (s t : NameSet) : NameSet :=
  ⟨s.toList.filter (· ∈ t), s.ascending.filter _⟩

instance : Inter NameSet := ⟨inter⟩

@[simp] theorem mem_inter {x : Name} {s t : NameSet} : x ∈ s ∩ t ↔ x ∈ s ∧ x ∈ t := by
  show x ∈ s.toList.filter (· ∈ t) ↔ _
  simp [mem_def]

/-! ## 4. Extensionality -/

/-- Two ascending lists with the same members are the same list. -/
theorem eq_of_pairwise_lt {l m : List Name} (hl : l.Pairwise (· < ·)) (hm : m.Pairwise (· < ·))
    (h : ∀ n, n ∈ l ↔ n ∈ m) : l = m := by
  induction l generalizing m with
  | nil => exact (List.eq_nil_iff_forall_not_mem.2 fun n hn => by simpa using (h n).2 hn).symm
  | cons a l ih =>
    cases m with
    | nil => simpa using (h a).1
    | cons b m =>
      rw [List.pairwise_cons] at hl hm
      obtain rfl : a = b := by
        rcases List.mem_cons.1 ((h a).1 (by simp)) with e | ha
        · exact e
        · rcases List.mem_cons.1 ((h b).2 (by simp)) with e | hb
          · exact e.symm
          · exact absurd (Text.lt_trans (hm.1 a ha) (hl.1 b hb)) (Text.lt_irrefl _)
      congr 1
      refine ih hl.2 hm.2 fun n => ?_
      constructor <;> intro hn
      · rcases List.mem_cons.1 ((h n).1 (by simp [hn])) with rfl | h'
        · exact absurd (hl.1 _ hn) (Text.lt_irrefl _)
        · exact h'
      · rcases List.mem_cons.1 ((h n).2 (by simp [hn])) with rfl | h'
        · exact absurd (hm.1 _ hn) (Text.lt_irrefl _)
        · exact h'

/-- Sets with the same members are equal. -/
@[ext] theorem ext {s t : NameSet} (h : ∀ n, n ∈ s ↔ n ∈ t) : s = t := by
  obtain ⟨l, hl⟩ := s
  obtain ⟨m, hm⟩ := t
  obtain rfl := eq_of_pairwise_lt hl hm h
  rfl

end NameSet

end Lookahead
