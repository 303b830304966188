import Lookahead.Grammar.Query
import Lookahead.Proofs.Fresh
import Lookahead.Proofs.Front

/-!
# FIRST by structure and FIRST after lowering

There are two ways to FIRST of an expression.  `Expr.first` follows its structure.  Lowering turns
it into productions, and their tables answer.  The two agree, because both build fronts in the same
way.

## 1. Fronts by structure

A sequence of atoms is atoms in a row, an expression is a choice, and a suffix makes nullable or
does nothing (`Expr.firstOfAtoms_cons`, `Expr.first_cons`, `Suffix.front`).  So the answer depends
on the tables only through the fronts of the names in the leaves (`Expr.first_congr`).

## 2. Pieces among other productions

The productions of a piece are usually seen among others.  What counts is that the others do not
interfere: for the names invented in the piece there must be no productions but those of the piece.
Such a piece is **embedded** (`Lowered.EmbeddedIn`), and then so are its parts.  This is where
freshness comes in: a part has no productions for what was invented in another one.

## 3. Agreement

In solved tables, the names that stand for an embedded piece have the front that the structure
gives.  A suffix is the heart of the matter (`front_withSuffix`): an option is a choice with the
empty sequence, and for a repetition the tables must be least.  The rest follows the recursion of
lowering (`Expr.firstOfChoice_lowerInto`).
-/

namespace Lookahead

/-! ## 1. Fronts by structure -/

/-- The front of something with a suffix. -/
def Suffix.front (suffix : Suffix) (a : Front) : Front := (a.1, a.2 || suffix.isOptional)

theorem Suffix.front_of_isOptional {suffix : Suffix} (h : suffix.isOptional = true) (a : Front) :
    suffix.front a = (a.1, true) := by rw [front, h, Bool.or_true]

theorem Suffix.front_of_not_isOptional {suffix : Suffix} (h : suffix.isOptional = false)
    (a : Front) : suffix.front a = a := by rw [front, h, Bool.or_false]

namespace Expr

variable {first first' : Table} {nullable nullable' : NameSet}

theorem firstOfAtom_leaf {l : Leaf} (hl : l ≠ .unknown) (suffix : Suffix) (span : Option Span) :
    firstOfAtom first nullable (.leaf l suffix span) =
      suffix.front (firstOfSequence first nullable (Lowered.ofLeaf l).names) := by
  cases l with
  | name n => rw [Lowered.ofLeaf, firstOfSequence_singleton]; rfl
  | literal t => rw [Lowered.ofLeaf, firstOfSequence_singleton]; rfl
  | unknown => exact absurd rfl hl

theorem firstOfAtom_group (alternatives : List (List Atom)) (suffix : Suffix) (span : Option Span) :
    firstOfAtom first nullable (.group alternatives suffix span) =
      suffix.front (Expr.first first nullable alternatives) := rfl

theorem firstOfAtoms_cons (a : Atom) (as : List Atom) :
    firstOfAtoms first nullable (a :: as) =
      Front.append (firstOfAtom first nullable a) (firstOfAtoms first nullable as) := by
  rw [firstOfAtoms]
  obtain ⟨f, n⟩ := firstOfAtom first nullable a
  cases n <;> rfl

theorem first_cons (alternative : List Atom) (rest : List (List Atom)) :
    Expr.first first nullable (alternative :: rest) =
      Front.join (firstOfAtoms first nullable alternative) (Expr.first first nullable rest) := rfl

mutual

theorem firstOfAtom_congr (a : Atom)
    (h : ∀ n ∈ namesOf (atomLeaves a), front first' nullable' n = front first nullable n) :
    firstOfAtom first' nullable' a = firstOfAtom first nullable a := by
  match a with
  | .leaf .unknown _ _ => rfl
  | .leaf (.name n) suffix _ =>
    have hn := h n (by simp [namesOf, atomLeaves, Lowered.ofLeaf])
    exact congrArg suffix.front hn
  | .leaf (.literal t) suffix _ =>
    have ht := h t (by simp [namesOf, atomLeaves, Lowered.ofLeaf])
    exact congrArg suffix.front ht
  | .group alternatives suffix _ =>
    rw [firstOfAtom_group, firstOfAtom_group, first_congr alternatives h]

theorem firstOfAtoms_congr (as : List Atom)
    (h : ∀ n ∈ namesOf (sequenceLeaves as), front first' nullable' n = front first nullable n) :
    firstOfAtoms first' nullable' as = firstOfAtoms first nullable as := by
  match as with
  | [] => rfl
  | a :: as =>
    rw [sequenceLeaves, namesOf_append, List.forall_mem_append] at h
    rw [firstOfAtoms_cons, firstOfAtoms_cons, firstOfAtom_congr a h.1, firstOfAtoms_congr as h.2]

/-- The answer depends on the fronts of the names that occur, and on nothing else. -/
theorem first_congr (e : List (List Atom))
    (h : ∀ n ∈ namesOf (leaves e), front first' nullable' n = front first nullable n) :
    Expr.first first' nullable' e = Expr.first first nullable e := by
  match e with
  | [] => rfl
  | alternative :: rest =>
    rw [leaves, namesOf_append, List.forall_mem_append] at h
    rw [first_cons, first_cons, firstOfAtoms_congr alternative h.1, first_congr rest h.2]

end

end Expr

/-! ## 2. Pieces among other productions -/

/-- The invented names of the piece are no terminals, and have no productions but those of the
piece. -/
def Lowered.EmbeddedIn (x : Lowered) (terminals : List Name) (ps : List Production) : Prop :=
  ∀ n ∈ x.fresh, n ∉ terminals ∧ rhssOf ps n = rhssOf x.productions n

namespace Lowered

variable {s s' s'' : Supply} {x y : Lowered} {own own' : List Name} {ls ms : List Leaf}
  {ts : List Name} {ps : List Production}

namespace EmbeddedIn

/-- Two embedded pieces in a row are embedded one by one. -/
theorem of_append (hx : Spells own ls s x s') (hy : Spells own' ms s' y s'')
    (ho : ∀ n ∈ own, n ∈ s.taken) (ho' : ∀ n ∈ own', n ∈ s.taken)
    (h : (x ++ y).EmbeddedIn ts ps) : x.EmbeddedIn ts ps ∧ y.EmbeddedIn ts ps := by
  constructor
  · intro n hn
    obtain ⟨hts, hrhss⟩ := h n (List.mem_append_left _ hn)
    have hown : n ∉ own' := fun hn' => hx.notMem n hn (ho' n hn')
    have hlater : n ∉ y.fresh := hx.toInvents.notMem_of_mem hy.toInvents hn
    rw [productions_append, rhssOf_append, hy.rhssOf_eq_nil hown hlater, List.append_nil] at hrhss
    exact ⟨hts, hrhss⟩
  · intro n hn
    obtain ⟨hts, hrhss⟩ := h n (List.mem_append_right _ hn)
    have hown : n ∉ own := fun hn' => hy.notMem n hn (hx.taken_subset (ho n hn'))
    have hbefore : n ∉ x.fresh := fun hn' => hx.toInvents.notMem_of_mem hy.toInvents hn' hn
    rw [productions_append, rhssOf_append, hx.rhssOf_eq_nil hown hbefore, List.nil_append] at hrhss
    exact ⟨hts, hrhss⟩

/-- Behind the productions of an embedded piece, productions of another name can be taken away. -/
theorem of_extend {o : Name} {qs : List Production} (hq : ∀ q ∈ qs, q.lhs = o) (ho : o ∉ x.fresh)
    (h : ∀ n ∈ x.fresh, n ∉ ts ∧ rhssOf ps n = rhssOf (x.productions ++ qs) n) :
    x.EmbeddedIn ts ps := by
  intro n hn
  obtain ⟨hts, hrhss⟩ := h n hn
  have hqs : rhssOf qs n = [] := Lookahead.rhssOf_eq_nil fun q hmem heq => by
    rw [← heq, hq q hmem] at hn
    exact ho hn
  rw [rhssOf_append, hqs, List.append_nil] at hrhss
  exact ⟨hts, hrhss⟩

theorem of_withSuffix (hx : Spells own ls s x s') {suffix : Suffix}
    (h : (x.withSuffix s' suffix).1.EmbeddedIn ts ps) : x.EmbeddedIn ts ps := by
  have hnew := hx.nextName_notMem_fresh
  cases suffix with
  | once => exact h
  | optional =>
    exact of_extend (by simp) (hnew .option) fun n hn => h n (List.mem_append_left _ hn)
  | star =>
    exact of_extend (by simp) (hnew .repetition) fun n hn => h n (List.mem_append_left _ hn)
  | plus =>
    exact of_extend (by simp) (hnew .repetition) fun n hn => h n (List.mem_append_left _ hn)
  | other word => exact h

theorem of_close (hx : Spells [] ls s x s') {lhs : Name} (hl : lhs ∈ s.taken)
    (h : (x.close lhs).EmbeddedIn ts ps) : x.EmbeddedIn ts ps :=
  of_extend (by simp) (fun hn => hx.notMem lhs hn hl) h

theorem of_group {g : Name} (h : (x.group g).EmbeddedIn ts ps) : x.EmbeddedIn ts ps :=
  fun n hn => h n (List.mem_cons_of_mem g hn)

/-- What is invented behind an embedded piece has the productions that come with it. -/
theorem rhssOf_extend {o : Name} {u v names literals : List Name} (hx : Spells [] ls s x s')
    (ho : o ∉ x.fresh)
    (h : EmbeddedIn ⟨names, x.productions ++ [⟨o, u⟩, ⟨o, v⟩], x.fresh ++ [o], literals⟩ ts ps) :
    o ∉ ts ∧ rhssOf ps o = [u, v] := by
  obtain ⟨hts, hrhss⟩ := h o (by simp)
  have hown : rhssOf [⟨o, u⟩, ⟨o, v⟩] o = [u, v] := rhssOf_eq_map (by simp)
  rw [rhssOf_append, hx.rhssOf_eq_nil List.not_mem_nil ho, hown] at hrhss
  exact ⟨hts, hrhss⟩

end EmbeddedIn

end Lowered

/-! ## 3. Agreement -/

section Agreement

variable {ts : List Name} {ps : List Production} {first : Table} {nullable : NameSet}

/-- With a suffix, an embedded piece has the front that the suffix makes of its front. -/
theorem front_withSuffix (hsolved : FirstSolved ts ps first nullable) {ls : List Leaf}
    {s s' : Supply} {x : Lowered} (hx : x.Spells [] ls s s') {suffix : Suffix}
    (h : (x.withSuffix s' suffix).1.EmbeddedIn ts ps) :
    firstOfSequence first nullable (x.withSuffix s' suffix).1.names =
      suffix.front (firstOfSequence first nullable x.names) := by
  have hnew := hx.nextName_notMem_fresh
  cases suffix with
  | once => exact (Suffix.front_of_not_isOptional rfl _).symm
  | optional =>
    obtain ⟨hts, hrhss⟩ := Lowered.EmbeddedIn.rhssOf_extend hx (hnew .option) h
    rw [Lowered.withSuffix, Lowered.optional, firstOfSequence_singleton, hsolved.front_eq _ hts,
      hrhss, firstOfChoice, firstOfChoice, firstOfChoice, Front.join_empty, firstOfSequence_nil,
      Front.join_nil, Suffix.front_of_isOptional rfl]
  | star =>
    -- the equations alone would let the repetition start with anything
    obtain ⟨hts, hrhss⟩ := Lowered.EmbeddedIn.rhssOf_extend hx (hnew .repetition) h
    rw [Lowered.withSuffix, Lowered.star, firstOfSequence_singleton,
      hsolved.repetition _ hts _ hrhss, Suffix.front_of_isOptional rfl]
  | plus =>
    obtain ⟨hts, hrhss⟩ := Lowered.EmbeddedIn.rhssOf_extend hx (hnew .repetition) h
    rw [Lowered.withSuffix, Lowered.plus, firstOfSequence_append, firstOfSequence_singleton,
      hsolved.repetition _ hts _ hrhss, Front.append_star, Suffix.front_of_not_isOptional rfl]
  | other word => exact (Suffix.front_of_not_isOptional rfl _).symm

/-- The name of an embedded group has the front of its alternatives. -/
theorem front_group (hsolved : FirstSolved ts ps first nullable) {x : Lowered} {g : Name}
    (h : (x.group g).EmbeddedIn ts ps) :
    firstOfSequence first nullable (x.group g).names =
      firstOfChoice first nullable (rhssOf x.productions g) := by
  obtain ⟨hts, hrhss⟩ := h g List.mem_cons_self
  rw [Lowered.group, firstOfSequence_singleton, hsolved.front_eq g hts, hrhss]
  rfl

namespace Expr

/-- A group that gets a name has the front that the structure gives, if its alternatives have. -/
theorem front_lowerGroup (hsolved : FirstSolved ts ps first nullable) {s : Supply}
    {e : List (List Atom)} {suffix : Suffix} {span : Option Span}
    (he : ∀ alternative, e ≠ [alternative])
    (h : (lowerAtom s (.group e suffix span)).1.EmbeddedIn ts ps)
    (hinner : (lowerInto (s.nextName .group) (s.next .group) e).1.EmbeddedIn ts ps →
      firstOfChoice first nullable (rhssOf
        (lowerInto (s.nextName .group) (s.next .group) e).1.productions (s.nextName .group)) =
          Expr.first first nullable e) :
    firstOfSequence first nullable (lowerAtom s (.group e suffix span)).1.names =
      firstOfAtom first nullable (.group e suffix span) := by
  rw [lowerAtom_group he] at h ⊢
  have hx := (spells_lowerInto (s.nextName .group) (s.next .group) e).group (by simp)
    (names_lowerInto ..)
  have hgroup := Lowered.EmbeddedIn.of_withSuffix hx h
  rw [front_withSuffix hsolved hx h, front_group hsolved hgroup, hinner hgroup.of_group,
    firstOfAtom_group]

mutual

theorem front_lowerAtom (hsolved : FirstSolved ts ps first nullable) (s : Supply) (a : Atom)
    (hl : .unknown ∉ atomLeaves a) (h : (lowerAtom s a).1.EmbeddedIn ts ps) :
    firstOfSequence first nullable (lowerAtom s a).1.names = firstOfAtom first nullable a := by
  match a with
  | .leaf l suffix _ =>
    rw [atomLeaves, List.mem_singleton] at hl
    rw [lowerAtom] at h ⊢
    rw [firstOfAtom_leaf (Ne.symm hl)]
    exact front_withSuffix hsolved (.ofLeaf s l) h
  | .group [alternative] suffix _ =>
    rw [atomLeaves, leaves, leaves, List.append_nil] at hl
    rw [lowerAtom] at h ⊢
    have hx := spells_lowerSequence s alternative
    rw [firstOfAtom_group, first_cons, Expr.first, Front.join_empty,
      ← front_lowerSequence hsolved s alternative hl (.of_withSuffix hx h)]
    exact front_withSuffix hsolved hx h
  | .group [] suffix _ =>
    exact front_lowerGroup hsolved (by simp) h
      (firstOfChoice_lowerInto hsolved _ _ [] (s.nextName_mem_next .group) hl)
  | .group (alternative :: next :: rest) suffix _ =>
    rw [atomLeaves] at hl
    exact front_lowerGroup hsolved (by simp) h
      (firstOfChoice_lowerInto hsolved _ _ (alternative :: next :: rest)
        (s.nextName_mem_next .group) hl)

theorem front_lowerSequence (hsolved : FirstSolved ts ps first nullable) (s : Supply)
    (as : List Atom) (hl : .unknown ∉ sequenceLeaves as)
    (h : (lowerSequence s as).1.EmbeddedIn ts ps) :
    firstOfSequence first nullable (lowerSequence s as).1.names =
      firstOfAtoms first nullable as := by
  match as with
  | [] => rfl
  | a :: as =>
    rw [sequenceLeaves, List.mem_append, not_or] at hl
    have hparts := Lowered.EmbeddedIn.of_append (spells_lowerAtom s a) (spells_lowerSequence _ as)
      (by simp) (by simp) h
    rw [lowerSequence, Lowered.names_append, firstOfSequence_append, firstOfAtoms_cons,
      front_lowerAtom hsolved s a hl.1 hparts.1, front_lowerSequence hsolved _ as hl.2 hparts.2]

/-- The productions that an expression is lowered to are a choice with the front of the expression.
-/
theorem firstOfChoice_lowerInto (hsolved : FirstSolved ts ps first nullable) (lhs : Name)
    (s : Supply) (e : List (List Atom)) (hlhs : lhs ∈ s.taken) (hl : .unknown ∉ leaves e)
    (h : (lowerInto lhs s e).1.EmbeddedIn ts ps) :
    firstOfChoice first nullable (rhssOf (lowerInto lhs s e).1.productions lhs) =
      Expr.first first nullable e := by
  match e with
  | [] => rfl
  | alternative :: rest =>
    rw [leaves, List.mem_append, not_or] at hl
    have hx := spells_lowerSequence s alternative
    have hrest := spells_lowerInto lhs (lowerSequence s alternative).2 rest
    have hparts := Lowered.EmbeddedIn.of_append (hx.close lhs) hrest (by simp [hlhs])
      (by simp [hlhs]) h
    -- `lhs` was taken before, so the productions invented for the alternative are none of `lhs`
    have hown : rhssOf ((lowerSequence s alternative).1.close lhs).productions lhs =
        [(lowerSequence s alternative).1.names] := by
      have hlater : lhs ∉ (lowerSequence s alternative).1.fresh := fun hn => hx.notMem lhs hn hlhs
      rw [Lowered.close, rhssOf_append, hx.rhssOf_eq_nil List.not_mem_nil hlater,
        rhssOf_eq_map (by simp)]
      rfl
    rw [lowerInto, Lowered.productions_append, rhssOf_append, hown, List.singleton_append,
      firstOfChoice, first_cons,
      front_lowerSequence hsolved s alternative hl.1 (.of_close hx hlhs hparts.1),
      firstOfChoice_lowerInto hsolved lhs _ rest (hx.taken_subset hlhs) hl.2 hparts.2]

end

end Expr

end Agreement

end Lookahead
