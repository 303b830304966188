import Lookahead.Extended.Declaration
import Lookahead.Extended.Supply
import Lookahead.Grammar.Production

/-!
# Lowering

An analysis knows plain productions only.  **Lowering** turns an expression into productions, one
for each of its alternatives, and invents non-terminals where a sequence of names cannot say what
the expression says:

* a group with one alternative needs none: the sequence inside stands for it;
* any other group gets a name `g`, and each of its alternatives becomes a production of `g`;
* `x?` becomes a name `o` with `o -> ε` and `o -> x`;
* `x*` becomes a name `r` with `r -> ε` and `r -> x r`;
* `x+` becomes `x r`, with the productions of `x*`.

## 1. Order

An expression is lowered from left to right and from the inside to the outside, with one
exception: a group takes its name before its inside is lowered.  The invented productions come out
in that order too, each in front of the production that uses it.

## 2. What is passed along

The supply of fresh names is threaded through (`Supply`); everything else is collected on the way
back (`Lowered`).  Lowering is total.  An atom without a meaning is reported by `faultOf?` before
anything is lowered, so what lowering makes of one is never seen: nothing known becomes the empty
sequence, and an unknown suffix is read as none.
-/

namespace Lookahead

/-- Why a tree cannot be lowered. -/
inductive LoweringFault where
  /-- A suffix is none of the four. -/
  | unknownSuffix (word : String)
  /-- An atom stands for nothing known. -/
  | unknownAtom
deriving DecidableEq, Repr

/-- The sentence that reports a fault. -/
def LoweringFault.message : LoweringFault → String
  | unknownSuffix word => "unknown suffix: " ++ word
  | unknownAtom => "unknown Atom.node"

namespace Expr

/-! ## 1. Faults -/

/-- The fault of a suffix. -/
def suffixFault? : Suffix → Option LoweringFault
  | .other word => some (.unknownSuffix word)
  | _ => none

mutual

/-- The first fault of an atom, what the suffix is applied to coming first. -/
def atomFault? : Atom → Option LoweringFault
  | .leaf .unknown _ _ => some .unknownAtom
  | .leaf _ suffix _ => suffixFault? suffix
  | .group alternatives suffix _ => (fault? alternatives).or (suffixFault? suffix)

/-- The first fault of a sequence. -/
def sequenceFault? : List Atom → Option LoweringFault
  | [] => none
  | a :: as => (atomFault? a).or (sequenceFault? as)

/-- The first fault of an expression. -/
def fault? : List (List Atom) → Option LoweringFault
  | [] => none
  | alternative :: rest => (sequenceFault? alternative).or (fault? rest)

end

theorem sequenceFault?_append (as bs : List Atom) :
    sequenceFault? (as ++ bs) = (sequenceFault? as).or (sequenceFault? bs) := by
  induction as with
  | nil => rfl
  | cons a as ih => rw [List.cons_append, sequenceFault?, sequenceFault?, ih, Option.or_assoc]

theorem fault?_append (e e' : List (List Atom)) :
    fault? (e ++ e') = (fault? e).or (fault? e') := by
  induction e with
  | nil => rfl
  | cons alternative rest ih => rw [List.cons_append, fault?, fault?, ih, Option.or_assoc]

end Expr

/-! ## 2. What comes out -/

/-- What a piece of an expression is lowered to: the names that stand for it, the productions and
non-terminals invented for it, and the literals read in it. -/
structure Lowered where
  names : List Name
  productions : List Production
  fresh : List Name
  literals : List Name
deriving DecidableEq, Repr, Inhabited

namespace Lowered

/-- The empty sequence. -/
def nil : Lowered := ⟨[], [], [], []⟩

/-- Two pieces in a row. -/
def append (x y : Lowered) : Lowered :=
  ⟨x.names ++ y.names, x.productions ++ y.productions, x.fresh ++ y.fresh,
    x.literals ++ y.literals⟩

instance : Append Lowered := ⟨append⟩

@[simp] theorem names_append (x y : Lowered) : (x ++ y).names = x.names ++ y.names := rfl

@[simp] theorem productions_append (x y : Lowered) :
    (x ++ y).productions = x.productions ++ y.productions := rfl

@[simp] theorem fresh_append (x y : Lowered) : (x ++ y).fresh = x.fresh ++ y.fresh := rfl

@[simp] theorem literals_append (x y : Lowered) :
    (x ++ y).literals = x.literals ++ y.literals := rfl

theorem append_nil (x : Lowered) : x ++ nil = x := by
  show mk (x.names ++ []) (x.productions ++ []) (x.fresh ++ []) (x.literals ++ []) = x
  simp only [List.append_nil]

theorem append_assoc (x y z : Lowered) : x ++ y ++ z = x ++ (y ++ z) := by
  show mk _ _ _ _ = mk _ _ _ _
  simp only [names_append, productions_append, fresh_append, literals_append, List.append_assoc]

/-- A leaf stands for itself. -/
def ofLeaf : Leaf → Lowered
  | .name n => ⟨[n], [], [], []⟩
  | .literal t => ⟨[t], [], [], [t]⟩
  | .unknown => nil

/-- The piece read once or not at all, under the name `o`. -/
def optional (x : Lowered) (o : Name) : Lowered :=
  ⟨[o], x.productions ++ [⟨o, []⟩, ⟨o, x.names⟩], x.fresh ++ [o], x.literals⟩

/-- The piece read any number of times, under the name `r`. -/
def star (x : Lowered) (r : Name) : Lowered :=
  ⟨[r], x.productions ++ [⟨r, []⟩, ⟨r, x.names ++ [r]⟩], x.fresh ++ [r], x.literals⟩

/-- The piece read at least once, the further readings under the name `r`. -/
def plus (x : Lowered) (r : Name) : Lowered :=
  ⟨x.names ++ [r], x.productions ++ [⟨r, []⟩, ⟨r, x.names ++ [r]⟩], x.fresh ++ [r], x.literals⟩

/-- The piece with a suffix. -/
def withSuffix (x : Lowered) (s : Supply) : Suffix → Lowered × Supply
  | .once => (x, s)
  | .optional => (x.optional (s.nextName .option), s.next .option)
  | .star => (x.star (s.nextName .repetition), s.next .repetition)
  | .plus => (x.plus (s.nextName .repetition), s.next .repetition)
  | .other _ => (x, s)

/-- A finished alternative: the names become the right-hand side of a production of `lhs`, behind
the productions that they need. -/
def close (x : Lowered) (lhs : Name) : Lowered :=
  ⟨[], x.productions ++ [⟨lhs, x.names⟩], x.fresh, x.literals⟩

/-- The group whose alternatives were lowered under the name `g`. -/
def group (x : Lowered) (g : Name) : Lowered :=
  ⟨[g], x.productions, g :: x.fresh, x.literals⟩

end Lowered

/-! ## 3. Lowering an expression -/

namespace Expr

mutual

/-- Lowers an atom. -/
def lowerAtom (s : Supply) : Atom → Lowered × Supply
  | .leaf l suffix _ => (Lowered.ofLeaf l).withSuffix s suffix
  | .group [alternative] suffix _ =>
    let (x, s) := lowerSequence s alternative
    x.withSuffix s suffix
  | .group alternatives suffix _ =>
    let g := s.nextName .group
    let (x, s) := lowerInto g (s.next .group) alternatives
    (x.group g).withSuffix s suffix

/-- Lowers a sequence. -/
def lowerSequence (s : Supply) : List Atom → Lowered × Supply
  | [] => (.nil, s)
  | a :: as =>
    let (x, s) := lowerAtom s a
    let (y, s) := lowerSequence s as
    (x ++ y, s)

/-- Lowers an expression to productions of `lhs`, one for each alternative. -/
def lowerInto (lhs : Name) (s : Supply) : List (List Atom) → Lowered × Supply
  | [] => (.nil, s)
  | alternative :: rest =>
    let (x, s) := lowerSequence s alternative
    let (y, s) := lowerInto lhs s rest
    (x.close lhs ++ y, s)

end

theorem lowerSequence_cons (s : Supply) (a : Atom) (as : List Atom) :
    lowerSequence s (a :: as) =
      ((lowerAtom s a).1 ++ (lowerSequence (lowerAtom s a).2 as).1,
        (lowerSequence (lowerAtom s a).2 as).2) := rfl

theorem lowerInto_cons (lhs : Name) (s : Supply) (alternative : List Atom)
    (rest : List (List Atom)) :
    lowerInto lhs s (alternative :: rest) =
      ((lowerSequence s alternative).1.close lhs ++
          (lowerInto lhs (lowerSequence s alternative).2 rest).1,
        (lowerInto lhs (lowerSequence s alternative).2 rest).2) := rfl

/-- A group of one alternative is lowered like that alternative. -/
theorem lowerAtom_group_singleton (s : Supply) (alternative : List Atom) (suffix : Suffix)
    (span : Option Span) :
    lowerAtom s (.group [alternative] suffix span) =
      (lowerSequence s alternative).1.withSuffix (lowerSequence s alternative).2 suffix := by
  rw [lowerAtom]

/-- Any other group gets a name. -/
theorem lowerAtom_group {e : List (List Atom)} (he : ∀ alternative, e ≠ [alternative]) (s : Supply)
    (suffix : Suffix) (span : Option Span) :
    lowerAtom s (.group e suffix span) =
      ((lowerInto (s.nextName .group) (s.next .group) e).1.group (s.nextName .group)).withSuffix
        (lowerInto (s.nextName .group) (s.next .group) e).2 suffix := by
  match e with
  | [] => rfl
  | [alternative] => exact absurd rfl (he alternative)
  | _ :: _ :: _ => rfl

/-- A suffix is lowered behind what it belongs to. -/
theorem lowerAtom_withSuffix (s : Supply) (a : Atom) (suffix : Suffix) :
    lowerAtom s (a.withSuffix suffix) =
      (lowerAtom s (a.withSuffix .once)).1.withSuffix (lowerAtom s (a.withSuffix .once)).2
        suffix := by
  match a with
  | .leaf l _ _ => rfl
  | .group [alternative] _ _ =>
    rw [Atom.withSuffix, Atom.withSuffix, lowerAtom_group_singleton, lowerAtom_group_singleton]
    rfl
  | .group [] _ _ => rfl
  | .group (_ :: _ :: _) _ _ => rfl

/-- Two sequences in a row are lowered one after the other. -/
theorem lowerSequence_append (s : Supply) (as bs : List Atom) :
    lowerSequence s (as ++ bs) =
      ((lowerSequence s as).1 ++ (lowerSequence (lowerSequence s as).2 bs).1,
        (lowerSequence (lowerSequence s as).2 bs).2) := by
  induction as generalizing s with
  | nil => rfl
  | cons a as ih =>
    rw [List.cons_append, lowerSequence_cons, ih, lowerSequence_cons, Lowered.append_assoc]

/-- Alternatives in a row are lowered one after the other. -/
theorem lowerInto_append (lhs : Name) (s : Supply) (e e' : List (List Atom)) :
    lowerInto lhs s (e ++ e') =
      ((lowerInto lhs s e).1 ++ (lowerInto lhs (lowerInto lhs s e).2 e').1,
        (lowerInto lhs (lowerInto lhs s e).2 e').2) := by
  induction e generalizing s with
  | nil => rfl
  | cons alternative rest ih =>
    rw [List.cons_append, lowerInto_cons, ih, lowerInto_cons, Lowered.append_assoc]

end Expr

/-! ## 4. Lowering rules -/

/-- Lowers a list of rules, one after the other. -/
def lowerRules (s : Supply) : List Rule → Lowered × Supply
  | [] => (.nil, s)
  | r :: rs =>
    let (x, s) := Expr.lowerInto r.name s r.body
    let (y, s) := lowerRules s rs
    (x ++ y, s)

theorem lowerRules_cons (s : Supply) (r : Rule) (rules : List Rule) :
    lowerRules s (r :: rules) =
      ((Expr.lowerInto r.name s r.body).1 ++
          (lowerRules (Expr.lowerInto r.name s r.body).2 rules).1,
        (lowerRules (Expr.lowerInto r.name s r.body).2 rules).2) := rfl

/-- Rules in a row are lowered one after the other. -/
theorem lowerRules_append (s : Supply) (rules rules' : List Rule) :
    lowerRules s (rules ++ rules') =
      ((lowerRules s rules).1 ++ (lowerRules (lowerRules s rules).2 rules').1,
        (lowerRules (lowerRules s rules).2 rules').2) := by
  induction rules generalizing s with
  | nil => rfl
  | cons r rules ih =>
    rw [List.cons_append, lowerRules_cons, ih, lowerRules_cons, Lowered.append_assoc]

end Lookahead
