import Lookahead.Extended.Meaning
import Lookahead.Proofs.Derivation
import Lookahead.Proofs.Fresh

/-!
# Interpreting lowered expressions

The meaning of rules says nothing about the names that lowering invents.  It can be extended to
them, and what is extended contains everything that the plain productions derive.

## 1. Productions as inclusions

A valuation **satisfies** productions if the language of each left-hand side contains the language
of each of its right-hand sides.  Such a valuation contains everything that can be derived
(`Valuation.Satisfies.sequence_le`).

## 2. What a language depends on

The language of an expression depends on the valuation only at the names in its leaves
(`Expr.language_congr`), so a change at invented names leaves it as it is.

## 3. Interpreted pieces

A lowered piece is **interpreted** by a language if every name invented for it can be given a
language, and nothing else changed, so that its productions are satisfied and the names that stand
for it have the language (`Lowered.Interprets`).  This is kept by each way to put pieces together,
because a piece is interpreted before the next one, and what is invented later does not occur in it.

## 4. Lowering interprets

Hence an expression that is lowered is interpreted by its language, and a list of rules by each
valuation under which the rule names contain their expressions (`interprets_lowerRules`).
-/

namespace Lookahead

open scoped Computability

/-! ## 1. Productions as inclusions -/

namespace Valuation

variable {v v' : Valuation} {u w : List Name} {ps qs : List Production}

/-- The language of a sequence of names. -/
def sequence (v : Valuation) (u : List Name) : Language Name := (u.map v).prod

@[simp] theorem sequence_nil (v : Valuation) : v.sequence [] = 1 := rfl

theorem sequence_cons (v : Valuation) (n : Name) (u : List Name) :
    v.sequence (n :: u) = v n * v.sequence u := by
  rw [sequence, List.map_cons, List.prod_cons, ← sequence]

@[simp] theorem sequence_singleton (v : Valuation) (n : Name) : v.sequence [n] = v n := by
  rw [sequence_cons, sequence_nil, mul_one]

theorem sequence_append (v : Valuation) (u w : List Name) :
    v.sequence (u ++ w) = v.sequence u * v.sequence w := by
  rw [sequence, List.map_append, List.prod_append, ← sequence, ← sequence]

theorem sequence_congr (h : ∀ n ∈ u, v' n = v n) : v'.sequence u = v.sequence u := by
  rw [sequence, sequence, List.map_congr_left h]

/-- Names that stand for themselves, in a row. -/
theorem mem_sequence_of_forall (h : ∀ n ∈ w, v n = {[n]}) : w ∈ v.sequence w := by
  induction w with
  | nil => exact Language.nil_mem_one
  | cons n w ih =>
    rw [List.forall_mem_cons] at h
    rw [sequence_cons, h.1]
    exact Language.append_mem_mul (Set.mem_singleton [n]) (ih h.2)

/-- Whether every left-hand side contains its right-hand sides. -/
def Satisfies (v : Valuation) (ps : List Production) : Prop :=
  ∀ p ∈ ps, v.sequence p.rhs ≤ v p.lhs

theorem satisfies_nil (v : Valuation) : v.Satisfies [] := fun _ hp => absurd hp List.not_mem_nil

theorem satisfies_append : v.Satisfies (ps ++ qs) ↔ v.Satisfies ps ∧ v.Satisfies qs :=
  List.forall_mem_append

theorem satisfies_pair {p q : Production} : v.Satisfies [p, q] ↔
    v.sequence p.rhs ≤ v p.lhs ∧ v.sequence q.rhs ≤ v q.lhs := by
  simp [Satisfies]

theorem Satisfies.congr (hv : v.Satisfies ps)
    (h : ∀ p ∈ ps, ∀ n ∈ p.lhs :: p.rhs, v' n = v n) : v'.Satisfies ps := by
  intro p hp
  have hp' := List.forall_mem_cons.1 (h p hp)
  rw [hp'.1, sequence_congr hp'.2]
  exact hv p hp

/-- What is derived from a sequence is contained in it. -/
theorem Satisfies.sequence_le (hv : v.Satisfies ps) (hd : Derives ps u w) :
    v.sequence w ≤ v.sequence u := by
  induction hd with
  | refl => exact le_rfl
  | tail _ step ih =>
    refine le_trans ?_ ih
    obtain ⟨hp, before, after⟩ := step
    rw [List.append_assoc, sequence_append, sequence_append, sequence_append, sequence_cons]
    exact mul_le_mul' le_rfl (mul_le_mul' (hv _ hp) le_rfl)

/-- Whether two valuations differ at most at some names. -/
def AgreesOff (v' : Valuation) (names : List Name) (v : Valuation) : Prop :=
  ∀ n, n ∉ names → v' n = v n

theorem AgreesOff.refl (v : Valuation) (names : List Name) : v.AgreesOff names v :=
  fun _ _ => rfl

/-- Two changes in a row. -/
theorem AgreesOff.append {v'' : Valuation} {ns ms : List Name} (h' : v''.AgreesOff ms v')
    (h : v'.AgreesOff ns v) : v''.AgreesOff (ns ++ ms) v := by
  intro n hn
  rw [List.mem_append, not_or] at hn
  exact (h' n hn.2).trans (h n hn.1)

theorem agreesOff_update (v : Valuation) (r : Name) (R : Language Name) :
    AgreesOff (Function.update v r R) [r] v := fun _ hn =>
  Function.update_of_ne (fun e => hn (List.mem_singleton.2 e)) R v

/-- Whether the valuation reads leaves as the names that they are lowered to.  It does if the texts
of literals stand for themselves. -/
def Reads (v : Valuation) (ls : List Leaf) : Prop :=
  ∀ l ∈ ls, v.sequence (Lowered.ofLeaf l).names = l.language v

theorem Reads.of_append {ls ms : List Leaf} (h : v.Reads (ls ++ ms)) :
    v.Reads ls ∧ v.Reads ms :=
  ⟨fun l hl => h l (List.mem_append_left ms hl), fun l hl => h l (List.mem_append_right ls hl)⟩

end Valuation

/-! ## 2. What a language depends on -/

section Congr

variable {v v' : Valuation}

theorem Leaf.language_congr {l : Leaf} (h : ∀ n ∈ (Lowered.ofLeaf l).names, v' n = v n) :
    l.language v' = l.language v := by
  cases l with
  | name n => exact h n (List.mem_singleton.2 rfl)
  | literal t => rfl
  | unknown => rfl

theorem Valuation.Reads.congr {ls : List Leaf} (hv : v.Reads ls)
    (h : ∀ l ∈ ls, ∀ n ∈ (Lowered.ofLeaf l).names, v' n = v n) : v'.Reads ls := by
  intro l hl
  rw [Valuation.sequence_congr (h l hl), Leaf.language_congr (h l hl)]
  exact hv l hl

namespace Expr

mutual

theorem atomLanguage_congr (a : Atom)
    (h : ∀ l ∈ atomLeaves a, l.language v' = l.language v) :
    atomLanguage v' a = atomLanguage v a := by
  match a with
  | .leaf l suffix _ =>
    rw [atomLanguage, atomLanguage, h l (List.mem_singleton.2 rfl)]
  | .group alternatives suffix _ =>
    rw [atomLeaves] at h
    rw [atomLanguage, atomLanguage, language_congr alternatives h]

theorem sequenceLanguage_congr (as : List Atom)
    (h : ∀ l ∈ sequenceLeaves as, l.language v' = l.language v) :
    sequenceLanguage v' as = sequenceLanguage v as := by
  match as with
  | [] => rfl
  | a :: as =>
    rw [sequenceLeaves, List.forall_mem_append] at h
    rw [sequenceLanguage, sequenceLanguage, atomLanguage_congr a h.1,
      sequenceLanguage_congr as h.2]

/-- The language of an expression depends on the languages of its leaves only. -/
theorem language_congr (e : List (List Atom))
    (h : ∀ l ∈ leaves e, l.language v' = l.language v) : language v' e = language v e := by
  match e with
  | [] => rfl
  | alternative :: rest =>
    rw [leaves, List.forall_mem_append] at h
    rw [language, language, sequenceLanguage_congr alternative h.1, language_congr rest h.2]

end

end Expr

end Congr

/-! ## 3. Interpreted pieces -/

namespace Lowered

variable {s s' s'' : Supply} {x y : Lowered} {v v' : Valuation} {X Y : Language Name}

/-- Whether the valuation can be changed at the names invented for the piece so that the productions
of the piece are satisfied and its names have the language. -/
def Interprets (x : Lowered) (v : Valuation) (X : Language Name) : Prop :=
  ∃ v' : Valuation, v'.AgreesOff x.fresh v ∧ v'.Satisfies x.productions ∧ v'.sequence x.names = X

/-- A change at invented names does not change what was there before. -/
theorem Scoped.eq_of_agreesOff (h : Scoped s x s') (hv : v'.AgreesOff x.fresh v) {n : Name}
    (hn : n ∈ s.taken) : v' n = v n := hv n fun hf => h.notMem n hf hn

theorem Scoped.reads (h : Scoped s x s') (hv : v'.AgreesOff x.fresh v) {ls : List Leaf}
    (hs : s.Holds ls) (hr : v.Reads ls) : v'.Reads ls :=
  hr.congr fun l hl n hn => h.eq_of_agreesOff hv (hs l hl n hn)

theorem Scoped.language_eq (h : Scoped s x s') (hv : v'.AgreesOff x.fresh v) {ls : List Leaf}
    (hs : s.Holds ls) : ∀ l ∈ ls, l.language v' = l.language v := fun l hl =>
  Leaf.language_congr fun n hn => h.eq_of_agreesOff hv (hs l hl n hn)

namespace Interprets

theorem nil (v : Valuation) : Lowered.nil.Interprets v 1 :=
  ⟨v, .refl v _, v.satisfies_nil, rfl⟩

theorem ofLeaf {l : Leaf} (h : v.sequence (Lowered.ofLeaf l).names = l.language v) :
    (Lowered.ofLeaf l).Interprets v (l.language v) := by
  refine ⟨v, .refl v _, ?_, h⟩
  cases l with
  | name n => exact v.satisfies_nil
  | literal t => exact v.satisfies_nil
  | unknown => exact v.satisfies_nil

/-- Two pieces in a row are interpreted one after the other. -/
theorem append (hx : Scoped s x s') (hy : Scoped s' y s'') (h : x.Interprets v X)
    (h' : ∀ v' : Valuation, v'.AgreesOff x.fresh v → y.Interprets v' Y) :
    (x ++ y).Interprets v (X * Y) := by
  obtain ⟨v', hv', hsat', hnames'⟩ := h
  obtain ⟨v'', hv'', hsat'', hnames''⟩ := h' v' hv'
  have hsame : ∀ n ∈ s'.taken, v'' n = v' n := fun n hn => hy.eq_of_agreesOff hv'' hn
  refine ⟨v'', hv''.append hv', Valuation.satisfies_append.2 ⟨?_, hsat''⟩, ?_⟩
  · exact hsat'.congr fun p hp n hn => hsame n (hx.production_mem p hp n hn)
  · show v''.sequence (x.names ++ y.names) = X * Y
    rw [Valuation.sequence_append, hnames'',
      Valuation.sequence_congr fun n hn => hsame n (hx.names_mem n hn), hnames']

/-- A name invented behind a piece can be given any language. -/
theorem extend (hx : Scoped s x s') (h : x.Interprets v X) (p : Purpose) (R : Language Name) :
    ∃ v' : Valuation, v'.AgreesOff (x.fresh ++ [s'.nextName p]) v ∧ v'.Satisfies x.productions ∧
      v'.sequence x.names = X ∧ v' (s'.nextName p) = R := by
  obtain ⟨v', hv', hsat, hnames⟩ := h
  have hsame : ∀ n ∈ s'.taken, Function.update v' (s'.nextName p) R n = v' n := by
    refine fun n hn => v'.agreesOff_update _ R n fun hr => s'.nextName_notMem p ?_
    rwa [← List.mem_singleton.1 hr]
  refine ⟨Function.update v' (s'.nextName p) R, (v'.agreesOff_update _ R).append hv', ?_, ?_, ?_⟩
  · exact hsat.congr fun q hq n hn => hsame n (hx.production_mem q hq n hn)
  · rw [Valuation.sequence_congr fun n hn => hsame n (hx.names_mem n hn), hnames]
  · exact Function.update_self (s'.nextName p) R v'

/-- The repetition that `x*` and `x+` share: the invented name has the language of the star. -/
theorem repetition (hx : Scoped s x s') (h : x.Interprets v X) :
    ∃ v' : Valuation, v'.AgreesOff (x.star (s'.nextName .repetition)).fresh v ∧
      v'.Satisfies (x.star (s'.nextName .repetition)).productions ∧
      v'.sequence x.names = X ∧ v' (s'.nextName .repetition) = X∗ := by
  obtain ⟨v', hv', hsat, hnames, hr⟩ := h.extend hx .repetition X∗
  refine ⟨v', hv', Valuation.satisfies_append.2 ⟨hsat, Valuation.satisfies_pair.2 ⟨?_, ?_⟩⟩,
    hnames, hr⟩
  · rw [hr]
    exact one_le_kstar
  · rw [hr, Valuation.sequence_append, Valuation.sequence_singleton, hnames, hr]
    exact mul_kstar_le_kstar

theorem withSuffix (hx : Scoped s x s') (h : x.Interprets v X) (suffix : Suffix) :
    (x.withSuffix s' suffix).1.Interprets v (suffix.language X) := by
  cases suffix with
  | once => exact h
  | optional =>
    obtain ⟨v', hv', hsat, hnames, ho⟩ := h.extend hx .option (1 + X)
    refine ⟨v', hv', Valuation.satisfies_append.2 ⟨hsat, Valuation.satisfies_pair.2 ⟨?_, ?_⟩⟩, ?_⟩
    · rw [ho]
      exact le_self_add
    · rw [ho, hnames]
      exact le_add_self
    · exact (v'.sequence_singleton _).trans ho
  | star =>
    obtain ⟨v', hv', hsat, -, hr⟩ := h.repetition hx
    exact ⟨v', hv', hsat, (v'.sequence_singleton _).trans hr⟩
  | plus =>
    obtain ⟨v', hv', hsat, hnames, hr⟩ := h.repetition hx
    refine ⟨v', hv', hsat, ?_⟩
    show v'.sequence (x.names ++ [s'.nextName .repetition]) = X * X∗
    rw [Valuation.sequence_append, Valuation.sequence_singleton, hnames, hr]
  | other word => exact h

/-- An alternative is finished under a name whose language contains it. -/
theorem close (hx : Scoped s x s') (h : x.Interprets v X) {lhs : Name} (hl : lhs ∈ s.taken)
    (hle : X ≤ v lhs) : (x.close lhs).Interprets v 1 := by
  obtain ⟨v', hv', hsat, hnames⟩ := h
  refine ⟨v', hv', Valuation.satisfies_append.2 ⟨hsat, fun p hp => ?_⟩, rfl⟩
  rw [List.mem_singleton.1 hp]
  show v'.sequence x.names ≤ v' lhs
  rw [hnames, hx.eq_of_agreesOff hv' hl]
  exact hle

/-- A group is interpreted by giving its name, which does not occur in it, the language first. -/
theorem group {e : List (List Atom)} (hx : Scoped (s.next .group) x s')
    (hs : s.Holds (Expr.leaves e)) (hv : v.Reads (Expr.leaves e))
    (h : ∀ v' : Valuation, v'.Reads (Expr.leaves e) →
      Expr.language v' e ≤ v' (s.nextName .group) → x.Interprets v' 1) :
    (x.group (s.nextName .group)).Interprets v (Expr.language v e) := by
  have hsame : ∀ l ∈ Expr.leaves e, ∀ n ∈ (Lowered.ofLeaf l).names,
      Function.update v (s.nextName .group) (Expr.language v e) n = v n := by
    refine fun l hl n hn => v.agreesOff_update _ _ n fun hr => s.nextName_notMem .group ?_
    rw [← List.mem_singleton.1 hr]
    exact hs l hl n hn
  have hlanguage := Expr.language_congr e fun l hl => Leaf.language_congr (hsame l hl)
  obtain ⟨v', hv', hsat, -⟩ := h (Function.update v (s.nextName .group) (Expr.language v e))
    (hv.congr hsame) (by rw [hlanguage, Function.update_self])
  refine ⟨v', hv'.append (v.agreesOff_update _ _), hsat, ?_⟩
  show v'.sequence [s.nextName .group] = Expr.language v e
  rw [Valuation.sequence_singleton, hx.eq_of_agreesOff hv' (s.nextName_mem_next .group),
    Function.update_self]

end Interprets

end Lowered

/-! ## 4. Lowering interprets -/

namespace Expr

mutual

theorem interprets_lowerAtom (s : Supply) (a : Atom) (h : s.Holds (atomLeaves a)) {v : Valuation}
    (hv : v.Reads (atomLeaves a)) : (lowerAtom s a).1.Interprets v (atomLanguage v a) := by
  match a with
  | .leaf l suffix _ =>
    rw [lowerAtom, atomLanguage]
    have hl : l ∈ [l] := List.mem_singleton.2 rfl
    exact .withSuffix (.ofLeaf (h l hl)) (.ofLeaf (hv l hl)) suffix
  | .group [alternative] suffix _ =>
    rw [atomLeaves, leaves, leaves, List.append_nil] at h hv
    rw [lowerAtom, atomLanguage, language, language, add_zero]
    exact .withSuffix (scoped_lowerSequence s alternative h)
      (interprets_lowerSequence s alternative h hv) suffix
  | .group [] suffix _ =>
    rw [atomLeaves] at h hv
    have hx := Lowered.Scoped.nil (s.next .group)
    exact .withSuffix hx.group (.group hx h hv fun v' _ _ => .nil v') suffix
  | .group (alternative :: next :: rest) suffix _ =>
    rw [atomLeaves] at h hv
    have hg := s.nextName_mem_next .group
    have hx := scoped_lowerInto _ _ (alternative :: next :: rest) hg (h.next .group)
    refine .withSuffix hx.group (.group hx h hv fun v' hv' hle => ?_) suffix
    exact interprets_lowerInto _ _ (alternative :: next :: rest) hg (h.next .group) hv' hle

theorem interprets_lowerSequence (s : Supply) (as : List Atom) (h : s.Holds (sequenceLeaves as))
    {v : Valuation} (hv : v.Reads (sequenceLeaves as)) :
    (lowerSequence s as).1.Interprets v (sequenceLanguage v as) := by
  match as with
  | [] => exact .nil v
  | a :: as =>
    rw [sequenceLeaves] at h hv
    obtain ⟨ha, has⟩ := h.of_append
    have hx := scoped_lowerAtom s a ha
    rw [sequenceLanguage]
    refine .append hx (scoped_lowerSequence _ as (hx.holds has))
      (interprets_lowerAtom s a ha hv.of_append.1) fun v' hv' => ?_
    rw [← sequenceLanguage_congr as (hx.language_eq hv' has)]
    exact interprets_lowerSequence _ as (hx.holds has) (hx.reads hv' has hv.of_append.2)

theorem interprets_lowerInto (lhs : Name) (s : Supply) (e : List (List Atom)) (hl : lhs ∈ s.taken)
    (h : s.Holds (leaves e)) {v : Valuation} (hv : v.Reads (leaves e))
    (hle : language v e ≤ v lhs) : (lowerInto lhs s e).1.Interprets v 1 := by
  match e with
  | [] => exact .nil v
  | alternative :: rest =>
    rw [leaves] at h hv
    rw [language, add_le_iff] at hle
    obtain ⟨ha, hrest⟩ := h.of_append
    have hx := scoped_lowerSequence s alternative ha
    have hl' := hx.taken_subset hl
    have hclose : Lowered.Interprets _ v 1 :=
      .close hx (interprets_lowerSequence s alternative ha hv.of_append.1) hl hle.1
    rw [← mul_one (1 : Language Name)]
    refine .append (hx.close hl) (scoped_lowerInto lhs _ rest hl' (hx.holds hrest)) hclose
      fun v' hv' => ?_
    refine interprets_lowerInto lhs _ rest hl' (hx.holds hrest)
      (hx.reads hv' hrest hv.of_append.2) ?_
    rw [language_congr rest (hx.language_eq hv' hrest), hx.eq_of_agreesOff hv' hl]
    exact hle.2

end

end Expr

/-- A valuation under which every rule name contains the expressions of its rules can be extended
to the invented names. -/
theorem interprets_lowerRules (s : Supply) (rules : List Rule) {v : Valuation}
    (hn : ∀ r ∈ rules, r.name ∈ s.taken) (h : ∀ r ∈ rules, s.Holds (Expr.leaves r.body))
    (hv : ∀ r ∈ rules, v.Reads (Expr.leaves r.body))
    (hle : ∀ r ∈ rules, Expr.language v r.body ≤ v r.name) :
    (lowerRules s rules).1.Interprets v 1 := by
  induction rules generalizing s v with
  | nil => exact .nil v
  | cons r rules ih =>
    rw [List.forall_mem_cons] at hn h hv hle
    have hx := Expr.scoped_lowerInto r.name s r.body hn.1 h.1
    have hn' := fun q hq => hx.taken_subset (hn.2 q hq)
    have h' := fun q hq => hx.holds (h.2 q hq)
    rw [← mul_one (1 : Language Name)]
    refine .append hx (scoped_lowerRules _ rules hn' h')
      (Expr.interprets_lowerInto r.name s r.body hn.1 h.1 hv.1 hle.1) fun v' hv' => ?_
    refine ih _ hn' h' (fun q hq => hx.reads hv' (h.2 q hq) (hv.2 q hq)) fun q hq => ?_
    rw [Expr.language_congr q.body (hx.language_eq hv' (h.2 q hq)),
      hx.eq_of_agreesOff hv' (hn.2 q hq)]
    exact hle.2 q hq

end Lookahead
