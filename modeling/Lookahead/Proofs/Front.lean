import Lookahead.Proofs.First

/-!
# Equations for FIRST and nullable

FIRST and nullable belong together: what a sequence starts with depends on whether its first name
can be left out.  A **front** is a pair of the two.

## 1. Fronts

Two things in a row and a choice between two things have fronts that are made of the two fronts
(`Front.append`, `Front.join`).  The front of a sequence is made of those of its names in this way
(`firstOfSequence_append`).

## 2. Equations

The front of a non-terminal is the choice between the fronts of its right-hand sides.  These
equations alone do not determine the tables, for they say nothing of a name that stands in its own
right-hand side behind what is nullable.  The tables are the least solution; for a repetition
`r -> ε`, `r -> u r` this means that `r` starts with what `u` starts with and nothing else.  A table
and a nullable set are **solved** for productions if they satisfy the equations and are least at
repetitions (`FirstSolved`).  The computed ones are (`firstSolved_firstTable`).
-/

namespace Lookahead

/-! ## 1. Fronts -/

/-- FIRST of something, and whether it is nullable. -/
abbrev Front := NameSet × Bool

namespace Front

/-- The front of two things in a row. -/
def append (a b : Front) : Front := (if a.2 then a.1 ∪ b.1 else a.1, a.2 && b.2)

/-- The front of a choice between two things. -/
def join (a b : Front) : Front := (a.1 ∪ b.1, a.2 || b.2)

variable {a b : Front}

theorem mem_append {t : Name} : t ∈ (append a b).1 ↔ t ∈ a.1 ∨ a.2 = true ∧ t ∈ b.1 := by
  unfold append
  split <;> simp [*]

@[simp] theorem append_snd : (append a b).2 = (a.2 && b.2) := rfl

theorem mem_join {t : Name} : t ∈ (join a b).1 ↔ t ∈ a.1 ∨ t ∈ b.1 := NameSet.mem_union

@[simp] theorem join_snd : (join a b).2 = (a.2 || b.2) := rfl

/-- A front is known by its members and its nullability. -/
theorem ext (h : ∀ t, t ∈ a.1 ↔ t ∈ b.1) (h' : a.2 = b.2) : a = b := Prod.ext (NameSet.ext h) h'

@[simp] theorem nil_append (a : Front) : append (∅, true) a = a :=
  ext (by simp [mem_append]) (by simp)

@[simp] theorem append_nil (a : Front) : append a (∅, true) = a :=
  ext (by simp [mem_append]) (by simp)

@[simp] theorem join_empty (a : Front) : join a (∅, false) = a := ext (by simp [mem_join]) (by simp)

@[simp] theorem empty_join (a : Front) : join (∅, false) a = a := ext (by simp [mem_join]) (by simp)

theorem append_assoc (a b c : Front) : append (append a b) c = append a (append b c) := by
  refine ext (fun t => ?_) (Bool.and_assoc ..)
  simp only [mem_append, append_snd, Bool.and_eq_true]
  tauto

theorem join_assoc (a b c : Front) : join (join a b) c = join a (join b c) := by
  refine ext (fun t => ?_) (Bool.or_assoc ..)
  simp only [mem_join, or_assoc]

/-- What can be left out starts with the same. -/
theorem join_nil (a : Front) : join (∅, true) a = (a.1, true) := ext (by simp [mem_join]) (by simp)

/-- Further readings of the same add nothing. -/
theorem append_star (a : Front) : append a (a.1, true) = a :=
  ext (by simp +contextual [mem_append]) (by simp)

end Front

/-- What is known of a name. -/
def front (first : Table) (nullable : NameSet) (n : Name) : Front := (first.get n, n ∈ nullable)

variable {first : Table} {nullable : NameSet}

theorem firstOfSequence_cons_eq (first : Table) (nullable : NameSet) (n : Name) (u : List Name) :
    firstOfSequence first nullable (n :: u) =
      Front.append (front first nullable n) (firstOfSequence first nullable u) := by
  by_cases hn : n ∈ nullable
  · rw [firstOfSequence_cons_nullable hn]
    simp [front, Front.append, hn]
  · rw [firstOfSequence_cons hn]
    simp [front, Front.append, hn]

@[simp] theorem firstOfSequence_singleton (n : Name) :
    firstOfSequence first nullable [n] = front first nullable n := by
  rw [firstOfSequence_cons_eq, firstOfSequence_nil, Front.append_nil]

theorem firstOfSequence_append (u v : List Name) :
    firstOfSequence first nullable (u ++ v) =
      Front.append (firstOfSequence first nullable u) (firstOfSequence first nullable v) := by
  induction u with
  | nil => rw [List.nil_append, firstOfSequence_nil, Front.nil_append]
  | cons n u ih =>
    rw [List.cons_append, firstOfSequence_cons_eq, firstOfSequence_cons_eq, ih, Front.append_assoc]

/-- The front of a choice between sequences. -/
def firstOfChoice (first : Table) (nullable : NameSet) : List (List Name) → Front
  | [] => (∅, false)
  | u :: us => .join (firstOfSequence first nullable u) (firstOfChoice first nullable us)

theorem mem_firstOfChoice {us : List (List Name)} {t : Name} :
    t ∈ (firstOfChoice first nullable us).1 ↔
      ∃ u ∈ us, t ∈ (firstOfSequence first nullable u).1 := by
  induction us with
  | nil => simp [firstOfChoice]
  | cons u us ih => rw [firstOfChoice, Front.mem_join, ih, List.exists_mem_cons_iff]

theorem firstOfChoice_snd {us : List (List Name)} :
    (firstOfChoice first nullable us).2 = true ↔ ∃ u ∈ us, ∀ n ∈ u, n ∈ nullable := by
  induction us with
  | nil => simp [firstOfChoice]
  | cons u us ih =>
    rw [firstOfChoice, Front.join_snd, Bool.or_eq_true, ih, firstOfSequence_snd_iff,
      List.exists_mem_cons_iff]

theorem firstOfChoice_append (us vs : List (List Name)) :
    firstOfChoice first nullable (us ++ vs) =
      Front.join (firstOfChoice first nullable us) (firstOfChoice first nullable vs) := by
  induction us with
  | nil => exact (Front.empty_join _).symm
  | cons u us ih =>
    rw [List.cons_append, firstOfChoice, firstOfChoice, ih, Front.join_assoc]

@[simp] theorem firstOfChoice_singleton (u : List Name) :
    firstOfChoice first nullable [u] = firstOfSequence first nullable u := Front.join_empty _

/-! ## 2. Equations -/

/-- Off some names, a table and a nullable set satisfy the equations of the productions, and are
least at repetitions. -/
structure FirstSolved (terminals : List Name) (ps : List Production) (first : Table)
    (nullable : NameSet) : Prop where
  front_eq : ∀ n ∉ terminals, front first nullable n = firstOfChoice first nullable (rhssOf ps n)
  repetition : ∀ n ∉ terminals, ∀ u, rhssOf ps n = [[], u ++ [n]] →
    front first nullable n = ((firstOfSequence first nullable u).1, true)

variable {c : Catalog} {ps : List Production}

/-- A derivation from one name begins with a production of this name. -/
theorem Derives.eq_or_exists_rhs {n : Name} {w : List Name} (h : Derives ps [n] w) :
    w = [n] ∨ ∃ u ∈ rhssOf ps n, Derives ps u w := by
  rcases Relation.ReflTransGen.cases_head h with rfl | ⟨v, step, h⟩
  · exact Or.inl rfl
  · exact Or.inr ⟨v, step.mem_rhssOf, h⟩

/-- A repetition starts with nothing that its body does not start with. -/
theorem get_firstTable_le_of_repetition {n : Name} (hn : n ∉ c.terminals) {u : List Name}
    (hr : rhssOf ps n = [[], u ++ [n]]) (nullable : NameSet) :
    (firstTable c ps nullable).get n ≤
      (firstOfSequence (firstTable c ps nullable) nullable u).1 := by
  refine saturate_foldl_induction
    (I := fun first : Table => first.get n ≤ (firstOfSequence first nullable u).1) ?_ ?_
  · intro first p hp hle
    have hgrow := (isGrowing_firstStep nullable).le first p
    refine le_trans ?_ (firstOfSequence_mono hgrow nullable u)
    by_cases hlhs : n = p.lhs
    · subst hlhs
      rw [firstStep, Table.get_add_self]
      refine NameSet.union_le hle ?_
      have hrhs : p.rhs ∈ rhssOf ps p.lhs := mem_rhssOf.2 hp
      simp only [hr, List.mem_cons, List.not_mem_nil, or_false] at hrhs
      rcases hrhs with hrhs | hrhs
      · rw [hrhs]
        exact fun t ht => absurd ht (NameSet.not_mem_empty t)
      · -- the repetition itself, behind the body, starts with what the body starts with
        rw [hrhs, firstOfSequence_append, firstOfSequence_singleton]
        intro t ht
        rcases Front.mem_append.1 ht with ht | ⟨-, ht⟩
        · exact ht
        · exact hle t ht
    · rw [firstStep, Table.get_add_of_ne hlhs]
      exact hle
  · exact fun t ht => absurd ((get_initialFirst c).1 ht).1 hn

theorem front_firstTable (h : Checked c ps) {n : Name} (hn : n ∉ c.terminals) :
    front (firstTable c ps (nullableSet c ps)) (nullableSet c ps) n =
      firstOfChoice (firstTable c ps (nullableSet c ps)) (nullableSet c ps) (rhssOf ps n) := by
  refine Front.ext (fun t => ?_) (Bool.eq_iff_iff.2 ?_)
  · rw [← firstOfSequence_singleton, mem_firstOfChoice, mem_firstOfSequence_iff h]
    simp only [mem_firstOfSequence_iff h]
    constructor
    · rintro ⟨ht, v, hd⟩
      obtain heq | ⟨u, hu, hd⟩ := hd.eq_or_exists_rhs
      · exact absurd ((List.cons.inj heq).1 ▸ ht) hn
      · exact ⟨u, hu, ht, v, hd⟩
    · rintro ⟨u, hu, ht, v, hd⟩
      exact ⟨ht, v, (Derives.of_mem (mem_rhssOf.1 hu)).trans hd⟩
  · rw [firstOfChoice_snd, front, decide_eq_true_eq]
    simp only [forall_mem_nullableSet_iff h]
    constructor
    · intro hnull
      obtain heq | hu := (derives_nil_of_mem_nullableSet hnull).eq_or_exists_rhs
      · exact absurd heq (by simp)
      · exact hu
    · rintro ⟨u, hu, hd⟩
      exact lhs_mem_nullableSet h (mem_rhssOf.1 hu) ((forall_mem_nullableSet_iff h).2 hd)

/-- The computed tables are solved. -/
theorem firstSolved_firstTable (h : Checked c ps) :
    FirstSolved c.terminals ps (firstTable c ps (nullableSet c ps)) (nullableSet c ps) where
  front_eq _ hn := front_firstTable h hn
  repetition n hn u hr := by
    have heq := front_firstTable h hn
    rw [hr] at heq
    refine Prod.ext (le_antisymm (get_firstTable_le_of_repetition hn hr _) fun t ht => ?_) ?_
    · rw [heq, mem_firstOfChoice]
      refine ⟨u ++ [n], by simp, ?_⟩
      rw [firstOfSequence_append]
      exact Front.mem_append.2 (Or.inl ht)
    · rw [heq]
      rfl

end Lookahead
