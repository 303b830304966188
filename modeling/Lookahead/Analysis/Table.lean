import Lookahead.NameSet
import Std.Data.TreeMap.Lemmas

/-!
# Tables of name sets

FIRST and FOLLOW give each symbol a set of names.  A `Table` holds one such set for each of its
keys, and a name that is no key has the empty set.  A table is seen only through `get`: `add`
enlarges the set of one name (`get_add`), and nothing else changes a table.
-/

namespace Lookahead

/-- A set of names for each of some keys. -/
structure Table where
  sets : Std.TreeMap Name NameSet

namespace Table

/-- The table without keys. -/
def empty : Table := ⟨∅⟩

instance : Inhabited Table := ⟨empty⟩

/-- The set of a name. -/
def get (t : Table) (n : Name) : NameSet := t.sets.getD n ∅

/-- Whether the name is a key. -/
def contains (t : Table) (n : Name) : Bool := t.sets.contains n

/-- Enlarges the set of a name, which becomes a key if it is none. -/
def add (t : Table) (n : Name) (s : NameSet) : Table := ⟨t.sets.insert n (t.get n ∪ s)⟩

/-- The table with the given keys, all sets empty. -/
def blank (keys : List Name) : Table := keys.foldl (fun t n => t.add n ∅) empty

/-- The number of members of the sets of some names together. -/
def sizeOver (t : Table) : List Name → Nat
  | [] => 0
  | n :: ns => (t.get n).size + t.sizeOver ns

@[simp] theorem get_empty (n : Name) : empty.get n = ∅ := by
  simp [get, empty]

@[simp] theorem contains_empty (n : Name) : empty.contains n = false := by
  simp [contains, empty]

theorem get_add (t : Table) (n m : Name) (s : NameSet) :
    (t.add n s).get m = if m = n then t.get n ∪ s else t.get m := by
  by_cases h : m = n
  · subst h; simp [get, add]
  · simp [get, add, Std.TreeMap.getD_insert, h, Ne.symm h]

theorem contains_add (t : Table) (n m : Name) (s : NameSet) :
    (t.add n s).contains m = (m == n || t.contains m) := by
  rw [Bool.eq_iff_iff]
  simp only [contains, add, Std.TreeMap.contains_insert, Bool.or_eq_true, beq_iff_eq,
    Std.compare_eq_iff_eq]
  exact or_congr_left eq_comm

@[simp] theorem get_add_self (t : Table) (n : Name) (s : NameSet) :
    (t.add n s).get n = t.get n ∪ s := by
  simp [get_add]

theorem get_add_of_ne {t : Table} {n m : Name} {s : NameSet} (h : m ≠ n) :
    (t.add n s).get m = t.get m := by
  simp [get_add, h]

@[simp] theorem get_blank (keys : List Name) (n : Name) : (blank keys).get n = ∅ := by
  have h : ∀ (keys : List Name) (t : Table), (∀ m, t.get m = ∅) →
      ∀ m, (keys.foldl (fun t n => t.add n ∅) t).get m = ∅ := by
    intro keys
    induction keys with
    | nil => exact fun t ht => ht
    | cons k ks ih =>
      refine fun t ht => ih _ fun m => ?_
      rw [get_add]
      split
      · ext x; simp [ht]
      · exact ht m
  exact h keys empty get_empty n

theorem contains_blank (keys : List Name) (n : Name) :
    (blank keys).contains n = true ↔ n ∈ keys := by
  have h : ∀ (keys : List Name) (t : Table),
      (keys.foldl (fun t n => t.add n ∅) t).contains n = true ↔
        n ∈ keys ∨ t.contains n = true := by
    intro keys
    induction keys with
    | nil => simp
    | cons k ks ih =>
      intro t
      rw [List.foldl_cons, ih, contains_add]
      simp only [List.mem_cons, Bool.or_eq_true, beq_iff_eq]
      grind
  simp [blank, h]

end Table

end Lookahead
