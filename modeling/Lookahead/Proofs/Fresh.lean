import Lookahead.Extended.Lowering
import Lookahead.Extended.Declaration
import Mathlib.Data.List.Nodup
import Mathlib.Data.List.Perm.Subperm

/-!
# Invented names are fresh

## 1. One name

Different numbers are written differently, so among the first `k + 1` candidates one is not in a
list of `k` names.  Hence the name that a supply gives out is not taken (`Supply.nextName_notMem`).

## 2. All names that a supply gives out

Between two supplies some names are **invented** if the second one has taken them and nothing else,
and they are new and different from each other (`Supply.Invents`).

## 3. What a piece is made of

A lowered piece **spells** some leaves if its sequences consist of the names in these leaves and of
invented names, and none of the leaves is lost (`Lowered.Spells`).  Its productions belong to
invented names and to those names that it was lowered under.  Each way to put pieces together leads
from pieces that spell to a piece that spells, and lowering does nothing else, whatever is taken
(`Expr.spells_lowerInto`, `spells_lowerRules`).

## 4. Pieces of taken names

If the names in the leaves are taken, the piece speaks of taken names only, and so nothing that is
invented later occurs in it (`Lowered.Scoped`).  If they are not, an invented name may be one of
them.
-/

namespace Lookahead

/-! ## 1. One name -/

theorem Purpose.numbered_injective (p : Purpose) : Function.Injective p.numbered := by
  intro i j h
  replace h := Text.ofString_injective h
  rw [String.append_right_inj, Nat.toString_eq_repr, Nat.toString_eq_repr] at h
  have hdigits : Nat.toDigits 10 i = Nat.toDigits 10 j := by
    rw [← Nat.toList_repr, h, Nat.toList_repr]
  rw [← Nat.ofDigitChars_ten_toDigits (n := i), hdigits, Nat.ofDigitChars_ten_toDigits]

theorem Purpose.five_le_length_numbered (p : Purpose) (k : Nat) : 5 ≤ (p.numbered k).length := by
  have hstem : p.stem.length = 5 := by cases p <;> rfl
  rw [numbered, Text.length_ofString, String.length_append, hstem]
  exact Nat.le_add_right ..

/-- Numbered names are long, so none of them is the end marker. -/
theorem Purpose.numbered_ne_endMarker (p : Purpose) (k : Nat) : p.numbered k ≠ endMarker := by
  intro h
  have hlength := p.five_le_length_numbered k
  rw [h] at hlength
  exact absurd hlength (by decide)

namespace Supply

theorem taken_next (s : Supply) (p : Purpose) : (s.next p).taken = s.nextName p :: s.taken := by
  cases p <;> rfl

/-- The name that is given out next is not in use. -/
theorem nextName_notMem (s : Supply) (p : Purpose) : s.nextName p ∉ s.taken := by
  rw [nextName, nextNumber, skipped]
  cases h : (List.range s.taken.length).find?
      fun i => p.numbered (s.count p + 1 + i) ∉ s.taken with
  | some i => simpa using List.find?_some h
  | none =>
    -- all candidates but the last one are in use, so the last one cannot be
    intro hlast
    have hused : (List.range (s.taken.length + 1)).map
        (fun i => p.numbered (s.count p + 1 + i)) ⊆ s.taken := by
      intro n hn
      obtain ⟨i, hi, rfl⟩ := List.mem_map.1 hn
      rcases Nat.lt_succ_iff_lt_or_eq.1 (List.mem_range.1 hi) with hlt | rfl
      · simpa using List.find?_eq_none.1 h i (List.mem_range.2 hlt)
      · exact hlast
    have hinj : Function.Injective fun i => p.numbered (s.count p + 1 + i) :=
      p.numbered_injective.comp fun i j hij => by simpa using hij
    have hlen := ((List.nodup_range.map hinj).subperm hused).length_le
    rw [List.length_map, List.length_range] at hlen
    omega

theorem mem_taken_next {s : Supply} {p : Purpose} {n : Name} :
    n ∈ (s.next p).taken ↔ n = s.nextName p ∨ n ∈ s.taken := by
  rw [taken_next, List.mem_cons]

theorem nextName_mem_next (s : Supply) (p : Purpose) : s.nextName p ∈ (s.next p).taken :=
  mem_taken_next.2 (Or.inl rfl)

/-- Whether the names and texts that the leaves hold are taken. -/
def Holds (s : Supply) (ls : List Leaf) : Prop :=
  ∀ l ∈ ls, ∀ n ∈ (Lowered.ofLeaf l).names, n ∈ s.taken

theorem Holds.of_append {s : Supply} {ls ms : List Leaf} (h : s.Holds (ls ++ ms)) :
    s.Holds ls ∧ s.Holds ms :=
  ⟨fun l hl => h l (List.mem_append_left ms hl), fun l hl => h l (List.mem_append_right ls hl)⟩

theorem Holds.next {s : Supply} {ls : List Leaf} (h : s.Holds ls) (p : Purpose) :
    (s.next p).Holds ls := fun l hl n hn => mem_taken_next.2 (Or.inr (h l hl n hn))

/-! ## 2. All names that a supply gives out -/

/-- Between the two supplies just these names are invented: they are new, and they are what the
second supply has taken in addition. -/
structure Invents (s : Supply) (fresh : List Name) (s' : Supply) : Prop where
  taken_eq : s'.taken = fresh.reverse ++ s.taken
  nodup : fresh.Nodup
  notMem : ∀ n ∈ fresh, n ∉ s.taken
  numbered : ∀ n ∈ fresh, ∃ (p : Purpose) (k : Nat), n = p.numbered k

namespace Invents

variable {s s' s'' : Supply} {ns ms : List Name}

theorem mem_taken (h : s.Invents ns s') {n : Name} : n ∈ s'.taken ↔ n ∈ ns ∨ n ∈ s.taken := by
  rw [h.taken_eq, List.mem_append, List.mem_reverse]

/-- What is taken stays taken. -/
theorem taken_subset (h : s.Invents ns s') : s.taken ⊆ s'.taken :=
  fun _ hn => h.mem_taken.2 (Or.inr hn)

theorem holds (h : s.Invents ns s') {ls : List Leaf} (hs : s.Holds ls) : s'.Holds ls :=
  fun l hl n hn => h.taken_subset (hs l hl n hn)

theorem refl (s : Supply) : s.Invents [] s where
  taken_eq := rfl
  nodup := .nil
  notMem _ hn := absurd hn List.not_mem_nil
  numbered _ hn := absurd hn List.not_mem_nil

theorem next (s : Supply) (p : Purpose) : s.Invents [s.nextName p] (s.next p) where
  taken_eq := s.taken_next p
  nodup := List.nodup_singleton _
  notMem _ hn := List.mem_singleton.1 hn ▸ s.nextName_notMem p
  numbered _ hn := ⟨p, s.nextNumber p, List.mem_singleton.1 hn⟩

/-- What is invented next is not what was invented before. -/
theorem nextName_notMem_fresh (h : s.Invents ns s') (p : Purpose) : s'.nextName p ∉ ns :=
  fun hn => s'.nextName_notMem p (h.mem_taken.2 (Or.inl hn))

/-- What is invented later is not what was invented before. -/
theorem notMem_of_mem (h : s.Invents ns s') (h' : s'.Invents ms s'') {n : Name} (hn : n ∈ ns) :
    n ∉ ms := fun hn' => h'.notMem n hn' (h.mem_taken.2 (Or.inl hn))

theorem append (h : s.Invents ns s') (h' : s'.Invents ms s'') : s.Invents (ns ++ ms) s'' where
  taken_eq := by rw [h'.taken_eq, h.taken_eq, List.reverse_append, List.append_assoc]
  nodup := List.nodup_append'.2 ⟨h.nodup, h'.nodup, fun _ hn => h.notMem_of_mem h' hn⟩
  notMem n hn := by
    rcases List.mem_append.1 hn with hn | hn
    · exact h.notMem n hn
    · exact fun hs => h'.notMem n hn (h.taken_subset hs)
  numbered n hn := by
    rcases List.mem_append.1 hn with hn | hn
    · exact h.numbered n hn
    · exact h'.numbered n hn

end Invents

end Supply

/-! ## 3. What a piece is made of -/

/-- A leaf is lowered to the name or the text that it holds. -/
theorem mem_names_ofLeaf {l : Leaf} {n : Name} :
    n ∈ (Lowered.ofLeaf l).names ↔ l.identifier? = some n ∨ l.literal? = some n := by
  cases l <;> simp [Lowered.ofLeaf, Lowered.nil, Leaf.identifier?, Leaf.literal?, eq_comm]

/-- The names and texts that leaves hold. -/
def namesOf (ls : List Leaf) : List Name := ls.flatMap fun l => (Lowered.ofLeaf l).names

@[simp] theorem namesOf_nil : namesOf [] = [] := rfl

@[simp] theorem namesOf_append (ls ms : List Leaf) :
    namesOf (ls ++ ms) = namesOf ls ++ namesOf ms := List.flatMap_append

theorem mem_namesOf_flatMap {α : Type} {f : α → List Leaf} {as : List α} {n : Name} :
    n ∈ namesOf (as.flatMap f) ↔ ∃ a ∈ as, n ∈ namesOf (f a) := by
  rw [namesOf, List.flatMap_assoc, List.mem_flatMap]
  rfl

theorem mem_namesOf {ls : List Leaf} {n : Name} :
    n ∈ namesOf ls ↔ n ∈ ls.filterMap Leaf.identifier? ∨ n ∈ ls.filterMap Leaf.literal? := by
  simp only [namesOf, List.mem_flatMap, mem_names_ofLeaf, List.mem_filterMap, and_or_left,
    exists_or]

/-- The piece was lowered between the two supplies, under the given names, and is made of the
leaves: its productions are those of the given names and of invented ones, and its sequences
consist of the names in the leaves and of invented names.  All of the given names and of the leaves
occur. -/
structure Lowered.Spells (own : List Name) (ls : List Leaf) (s : Supply) (x : Lowered)
    (s' : Supply) : Prop extends s.Invents x.fresh s' where
  names_mem : ∀ n ∈ x.names, n ∈ namesOf ls ∨ n ∈ x.fresh
  lhs_mem : ∀ p ∈ x.productions, p.lhs ∈ own ∨ p.lhs ∈ x.fresh
  rhs_mem : ∀ p ∈ x.productions, ∀ n ∈ p.rhs, n ∈ namesOf ls ∨ n ∈ x.fresh
  exists_lhs : ∀ n ∈ own, ∃ p ∈ x.productions, p.lhs = n
  exists_of_leaf : ∀ n ∈ namesOf ls, n ∈ x.names ∨ ∃ p ∈ x.productions, n ∈ p.rhs
  literals_eq : x.literals = ls.filterMap Leaf.literal?

namespace Lowered.Spells

variable {s s' s'' : Supply} {x y : Lowered} {own own' : List Name} {ls ms : List Leaf}

/-- Where no sequence is left over, every name in the leaves stands in a production. -/
theorem exists_rhs (h : Spells own ls s x s') (hx : x.names = []) {n : Name} (hn : n ∈ namesOf ls) :
    ∃ p ∈ x.productions, n ∈ p.rhs :=
  (h.exists_of_leaf n hn).resolve_left fun hn => List.not_mem_nil (hx ▸ hn)

/-- A piece has no productions for names that it neither invents nor was lowered under. -/
theorem rhssOf_eq_nil (h : Spells own ls s x s') {n : Name} (ho : n ∉ own)
    (hn : n ∉ x.fresh) : rhssOf x.productions n = [] := by
  refine Lookahead.rhssOf_eq_nil fun p hp => ?_
  rintro rfl
  exact (h.lhs_mem p hp).elim ho hn

theorem nil (s : Supply) : Spells [] [] s .nil s where
  toInvents := .refl s
  names_mem _ hn := absurd hn List.not_mem_nil
  lhs_mem _ hp := absurd hp List.not_mem_nil
  rhs_mem _ hp := absurd hp List.not_mem_nil
  exists_lhs _ hn := absurd hn List.not_mem_nil
  exists_of_leaf _ hn := absurd hn List.not_mem_nil
  literals_eq := rfl

theorem ofLeaf (s : Supply) (l : Leaf) : Spells [] [l] s (Lowered.ofLeaf l) s := by
  have hmem : ∀ n, n ∈ namesOf [l] ↔ n ∈ (Lowered.ofLeaf l).names := fun n => by simp [namesOf]
  have hempty : (Lowered.ofLeaf l).productions = [] ∧ (Lowered.ofLeaf l).fresh = [] ∧
      (Lowered.ofLeaf l).literals = [l].filterMap Leaf.literal? := by
    cases l <;> exact ⟨rfl, rfl, rfl⟩
  obtain ⟨hproductions, hfresh, hliterals⟩ := hempty
  refine ⟨hfresh ▸ .refl s, fun n hn => Or.inl ((hmem n).2 hn), ?_, ?_, ?_, ?_, hliterals⟩
  · simp [hproductions]
  · simp [hproductions]
  · simp
  · exact fun n hn => Or.inl ((hmem n).1 hn)

/-- Two pieces in a row, the second lowered behind the first. -/
theorem append (hx : Spells own ls s x s') (hy : Spells own' ms s' y s'') :
    Spells (own ++ own') (ls ++ ms) s (x ++ y) s'' where
  toInvents := hx.toInvents.append hy.toInvents
  names_mem n hn := by
    have hx := hx.names_mem n
    have hy := hy.names_mem n
    simp only [names_append, fresh_append, namesOf_append, List.mem_append] at hn ⊢
    tauto
  lhs_mem p hp := by
    have hx := hx.lhs_mem p
    have hy := hy.lhs_mem p
    simp only [productions_append, fresh_append, List.mem_append] at hp ⊢
    tauto
  rhs_mem p hp n hn := by
    have hx := fun hp => hx.rhs_mem p hp n hn
    have hy := fun hp => hy.rhs_mem p hp n hn
    simp only [productions_append, fresh_append, namesOf_append, List.mem_append] at hp ⊢
    tauto
  exists_lhs n hn := by
    rcases List.mem_append.1 hn with hn | hn
    · obtain ⟨p, hp, hl⟩ := hx.exists_lhs n hn
      exact ⟨p, List.mem_append_left _ hp, hl⟩
    · obtain ⟨p, hp, hl⟩ := hy.exists_lhs n hn
      exact ⟨p, List.mem_append_right _ hp, hl⟩
  exists_of_leaf n hn := by
    rw [namesOf_append, List.mem_append] at hn
    rcases hn with hn | hn
    · refine (hx.exists_of_leaf n hn).imp (List.mem_append_left _) ?_
      exact fun ⟨p, hp, hn⟩ => ⟨p, List.mem_append_left _ hp, hn⟩
    · refine (hy.exists_of_leaf n hn).imp (List.mem_append_right _) ?_
      exact fun ⟨p, hp, hn⟩ => ⟨p, List.mem_append_right _ hp, hn⟩
  literals_eq := by
    rw [literals_append, hx.literals_eq, hy.literals_eq, List.filterMap_append]

/-- One more name is invented behind a piece, for productions over this name and the piece.  The
piece goes into one of them. -/
theorem extend (h : Spells own ls s x s') (p : Purpose) {names : List Name}
    {qs : List Production} (hn : ∀ n ∈ names, n ∈ x.names ++ [s'.nextName p])
    (hl : ∀ q ∈ qs, q.lhs = s'.nextName p)
    (hr : ∀ q ∈ qs, ∀ n ∈ q.rhs, n ∈ x.names ++ [s'.nextName p])
    (hx : ∃ q ∈ qs, ∀ n ∈ x.names, n ∈ q.rhs) :
    Spells own ls s ⟨names, x.productions ++ qs, x.fresh ++ [s'.nextName p], x.literals⟩
      (s'.next p) := by
  have hfresh : ∀ n, n ∈ x.fresh ++ [s'.nextName p] ↔ n ∈ x.fresh ∨ n = s'.nextName p := fun n => by
    rw [List.mem_append, List.mem_singleton]
  have hnames : ∀ n ∈ x.names ++ [s'.nextName p],
      n ∈ namesOf ls ∨ n ∈ x.fresh ++ [s'.nextName p] := by
    intro n hn
    rw [hfresh]
    rcases List.mem_append.1 hn with hn | hn
    · exact (h.names_mem n hn).imp_right Or.inl
    · exact Or.inr (Or.inr (List.mem_singleton.1 hn))
  refine ⟨h.toInvents.append (.next s' p), fun n hn' => hnames n (hn n hn'), fun q hq => ?_,
    fun q hq n hn' => ?_, fun n hn' => ?_, fun n hn' => Or.inr ?_, h.literals_eq⟩
  · rw [hfresh]
    rcases List.mem_append.1 hq with hq | hq
    · exact (h.lhs_mem q hq).imp_right Or.inl
    · exact Or.inr (Or.inr (hl q hq))
  · rcases List.mem_append.1 hq with hq | hq
    · exact (h.rhs_mem q hq n hn').imp_right (List.mem_append_left _)
    · exact hnames n (hr q hq n hn')
  · obtain ⟨q, hq, hl⟩ := h.exists_lhs n hn'
    exact ⟨q, List.mem_append_left _ hq, hl⟩
  · rcases h.exists_of_leaf n hn' with hn' | ⟨q, hq, hn'⟩
    · obtain ⟨q, hq, hall⟩ := hx
      exact ⟨q, List.mem_append_right _ hq, hall n hn'⟩
    · exact ⟨q, List.mem_append_left _ hq, hn'⟩

theorem withSuffix (h : Spells own ls s x s') (suffix : Suffix) :
    Spells own ls s (x.withSuffix s' suffix).1 (x.withSuffix s' suffix).2 := by
  cases suffix with
  | once => exact h
  | optional => exact h.extend .option (by simp) (by simp) (by simp +contextual) (by simp)
  | star => exact h.extend .repetition (by simp) (by simp) (by simp) (by simp +contextual)
  | plus => exact h.extend .repetition (by simp) (by simp) (by simp) (by simp +contextual)
  | other word => exact h

/-- An alternative, finished under a name. -/
theorem close (h : Spells [] ls s x s') (lhs : Name) : Spells [lhs] ls s (x.close lhs) s' := by
  refine ⟨h.toInvents, by simp [Lowered.close], fun p hp => ?_, fun p hp n hn => ?_, fun n hn => ?_,
    fun n hn => Or.inr ?_, h.literals_eq⟩
  · rcases List.mem_append.1 hp with hp | hp
    · exact Or.inr ((h.lhs_mem p hp).resolve_left List.not_mem_nil)
    · rw [List.mem_singleton.1 hp]
      exact Or.inl List.mem_cons_self
  · rcases List.mem_append.1 hp with hp | hp
    · exact h.rhs_mem p hp n hn
    · rw [List.mem_singleton.1 hp] at hn
      exact h.names_mem n hn
  · rw [List.mem_singleton.1 hn]
    exact ⟨_, List.mem_append_right _ (List.mem_singleton.2 rfl), rfl⟩
  · rcases h.exists_of_leaf n hn with hn | ⟨p, hp, hn⟩
    · exact ⟨_, List.mem_append_right _ (List.mem_singleton.2 rfl), hn⟩
    · exact ⟨p, List.mem_append_left _ hp, hn⟩

/-- A group, whose name is invented in front of its inside. -/
theorem group (h : Spells own ls (s.next .group) x s') (ho : ∀ n ∈ own, n = s.nextName .group)
    (hx : x.names = []) : Spells [] ls s (x.group (s.nextName .group)) s' := by
  have hinner : ∀ {n}, n ∈ namesOf ls ∨ n ∈ x.fresh →
      n ∈ namesOf ls ∨ n ∈ (x.group (s.nextName .group)).fresh :=
    Or.imp_right (List.mem_cons_of_mem _)
  refine ⟨(Supply.Invents.next s .group).append h.toInvents, fun n hn => ?_, fun p hp => ?_,
    fun p hp n hn => hinner (h.rhs_mem p hp n hn), by simp, fun n hn => Or.inr ?_, h.literals_eq⟩
  · rw [List.mem_singleton.1 hn]
    exact Or.inr List.mem_cons_self
  · rcases h.lhs_mem p hp with hl | hl
    · rw [ho _ hl]
      exact Or.inr List.mem_cons_self
    · exact Or.inr (List.mem_cons_of_mem _ hl)
  · exact h.exists_rhs hx hn

end Lowered.Spells

namespace Expr

/-- Alternatives end up in productions, and no sequence is left over. -/
@[simp] theorem names_lowerInto (lhs : Name) (s : Supply) (e : List (List Atom)) :
    (lowerInto lhs s e).1.names = [] := by
  induction e generalizing s with
  | nil => rfl
  | cons alternative rest ih => exact ih _

mutual

theorem spells_lowerAtom (s : Supply) (a : Atom) :
    (lowerAtom s a).1.Spells [] (atomLeaves a) s (lowerAtom s a).2 := by
  match a with
  | .leaf l suffix _ =>
    rw [lowerAtom]
    exact (Lowered.Spells.ofLeaf s l).withSuffix suffix
  | .group [alternative] suffix _ =>
    rw [lowerAtom, atomLeaves, leaves, leaves, List.append_nil]
    exact (spells_lowerSequence s alternative).withSuffix suffix
  | .group [] suffix _ =>
    have h := spells_lowerInto (s.nextName .group) (s.next .group) []
    exact (h.group (by simp) (names_lowerInto ..)).withSuffix suffix
  | .group (alternative :: next :: rest) suffix _ =>
    have h := spells_lowerInto (s.nextName .group) (s.next .group) (alternative :: next :: rest)
    rw [atomLeaves]
    exact (h.group (by simp) (names_lowerInto ..)).withSuffix suffix

theorem spells_lowerSequence (s : Supply) (as : List Atom) :
    (lowerSequence s as).1.Spells [] (sequenceLeaves as) s (lowerSequence s as).2 := by
  match as with
  | [] => exact .nil s
  | a :: as => exact (spells_lowerAtom s a).append (spells_lowerSequence _ as)

theorem spells_lowerInto (lhs : Name) (s : Supply) (e : List (List Atom)) :
    (lowerInto lhs s e).1.Spells (e.map fun _ => lhs) (leaves e) s (lowerInto lhs s e).2 := by
  match e with
  | [] => exact .nil s
  | alternative :: rest =>
    exact ((spells_lowerSequence s alternative).close lhs).append (spells_lowerInto lhs _ rest)

end

end Expr

/-- Rules are lowered under their names, once for each alternative. -/
theorem spells_lowerRules (s : Supply) (rules : List Rule) :
    (lowerRules s rules).1.Spells (rules.flatMap fun r => r.body.map fun _ => r.name)
      (rules.flatMap fun r => Expr.leaves r.body) s (lowerRules s rules).2 := by
  induction rules generalizing s with
  | nil => exact .nil s
  | cons r rules ih => exact (Expr.spells_lowerInto r.name s r.body).append (ih _)

/-! ## 4. Pieces of taken names -/

/-- The piece was lowered between the two supplies and speaks of taken names. -/
structure Lowered.Scoped (s : Supply) (x : Lowered) (s' : Supply) : Prop
    extends s.Invents x.fresh s' where
  names_mem : ∀ n ∈ x.names, n ∈ s'.taken
  production_mem : ∀ p ∈ x.productions, ∀ n ∈ p.lhs :: p.rhs, n ∈ s'.taken

/-- A piece that is made of taken names speaks of taken names. -/
theorem Lowered.Spells.scoped {own : List Name} {ls : List Leaf} {s s' : Supply} {x : Lowered}
    (h : Spells own ls s x s') (ho : ∀ n ∈ own, n ∈ s.taken) (hl : s.Holds ls) :
    Scoped s x s' := by
  have hmem : ∀ {n}, n ∈ namesOf ls ∨ n ∈ x.fresh → n ∈ s'.taken := by
    rintro n (hn | hn)
    · obtain ⟨l, hll, hn⟩ := List.mem_flatMap.1 hn
      exact h.taken_subset (hl l hll n hn)
    · exact h.mem_taken.2 (Or.inl hn)
  refine ⟨h.toInvents, fun n hn => hmem (h.names_mem n hn), fun p hp => ?_⟩
  rw [List.forall_mem_cons]
  refine ⟨?_, fun n hn => hmem (h.rhs_mem p hp n hn)⟩
  rcases h.lhs_mem p hp with hl | hl
  · exact h.taken_subset (ho _ hl)
  · exact hmem (Or.inr hl)

namespace Lowered.Scoped

variable {s s' : Supply} {x : Lowered}

theorem nil (s : Supply) : Scoped s .nil s :=
  (Spells.nil s).scoped (by simp) (by simp [Supply.Holds])

theorem ofLeaf {l : Leaf} (h : ∀ n ∈ (Lowered.ofLeaf l).names, n ∈ s.taken) :
    Scoped s (Lowered.ofLeaf l) s :=
  (Spells.ofLeaf s l).scoped (by simp) fun _ hm => List.mem_singleton.1 hm ▸ h

theorem close (h : Scoped s x s') {lhs : Name} (hl : lhs ∈ s.taken) :
    Scoped s (x.close lhs) s' where
  toInvents := h.toInvents
  names_mem _ hn := absurd hn List.not_mem_nil
  production_mem p hp n hn := by
    rcases List.mem_append.1 hp with hp | hp
    · exact h.production_mem p hp n hn
    · rw [List.mem_singleton.1 hp] at hn
      rcases List.mem_cons.1 hn with rfl | hn
      · exact h.taken_subset hl
      · exact h.names_mem n hn

theorem group (h : Scoped (s.next .group) x s') : Scoped s (x.group (s.nextName .group)) s' := by
  refine ⟨(Supply.Invents.next s .group).append h.toInvents, fun n hn => ?_, h.production_mem⟩
  rw [List.mem_singleton.1 hn]
  exact h.taken_subset (s.nextName_mem_next .group)

end Lowered.Scoped

namespace Expr

theorem scoped_lowerSequence (s : Supply) (as : List Atom) (h : s.Holds (sequenceLeaves as)) :
    (lowerSequence s as).1.Scoped s (lowerSequence s as).2 :=
  (spells_lowerSequence s as).scoped (by simp) h

theorem scoped_lowerAtom (s : Supply) (a : Atom) (h : s.Holds (atomLeaves a)) :
    (lowerAtom s a).1.Scoped s (lowerAtom s a).2 :=
  (spells_lowerAtom s a).scoped (by simp) h

theorem scoped_lowerInto (lhs : Name) (s : Supply) (e : List (List Atom)) (hl : lhs ∈ s.taken)
    (h : s.Holds (leaves e)) : (lowerInto lhs s e).1.Scoped s (lowerInto lhs s e).2 :=
  (spells_lowerInto lhs s e).scoped (by simp +contextual [hl]) h

end Expr

/-- The names invented for a list of rules are new. -/
theorem scoped_lowerRules (s : Supply) (rules : List Rule) (hn : ∀ r ∈ rules, r.name ∈ s.taken)
    (h : ∀ r ∈ rules, s.Holds (Expr.leaves r.body)) :
    (lowerRules s rules).1.Scoped s (lowerRules s rules).2 := by
  refine (spells_lowerRules s rules).scoped (fun n hn' => ?_) fun l hl => ?_
  · obtain ⟨r, hr, hn'⟩ := List.mem_flatMap.1 hn'
    obtain ⟨_, -, rfl⟩ := List.mem_map.1 hn'
    exact hn r hr
  · obtain ⟨r, hr, hl⟩ := List.mem_flatMap.1 hl
    exact h r hr l hl

end Lookahead
