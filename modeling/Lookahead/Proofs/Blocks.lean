import Lookahead.Proofs.Bracketing

/-!
# The shape of lowered productions

When productions are lowered one after the other, what comes of each of them is a **block**, and the
blocks follow each other in the order of the productions.  A production without marks is a block by
itself.  Any other one is read, and its block begins with one production for each of its
alternatives; behind them stand productions of names that were invented for this block only.

## 1. Every invented name is used

A name is invented for a group, an option or a repetition, and gets productions at once.  Only a group
without alternatives would get none, and no such group can be spelled in names.

## 2. Outlines

An alternative becomes a sequence of names, its **outline**: a name stays, round brackets around one
alternative are taken off, and any other group is an invented name (`IsOutline`).

## 3. Blocks

So each production is lowered to a block (`isBlock_of_lowerProduction`).  The names invented for one
block are neither taken nor invented for another one, so blocks do not meddle with each other
(`Block.Apart`).  And no mark is left, so lowering a second time changes nothing.
-/

namespace Lookahead

/-! ## 1. Every invented name is used -/

/-- Every name invented for the piece has a production. -/
def Lowered.UsesFresh (x : Lowered) : Prop := ∀ n ∈ x.fresh, ∃ q ∈ x.productions, q.lhs = n

namespace Lowered.UsesFresh

variable {x y : Lowered}

theorem append (hx : x.UsesFresh) (hy : y.UsesFresh) : (x ++ y).UsesFresh := by
  intro n hn
  rcases List.mem_append.1 hn with hn | hn
  · obtain ⟨q, hq, hl⟩ := hx n hn
    exact ⟨q, List.mem_append_left _ hq, hl⟩
  · obtain ⟨q, hq, hl⟩ := hy n hn
    exact ⟨q, List.mem_append_right _ hq, hl⟩

theorem close (hx : x.UsesFresh) (lhs : Name) : (x.close lhs).UsesFresh := by
  intro n hn
  obtain ⟨q, hq, hl⟩ := hx n hn
  exact ⟨q, List.mem_append_left _ hq, hl⟩

/-- One more name, behind the piece, with a production. -/
theorem extend (hx : x.UsesFresh) {names : List Name} {m : Name} {rhs : List Name}
    {qs : List Production} :
    UsesFresh ⟨names, x.productions ++ ⟨m, rhs⟩ :: qs, x.fresh ++ [m], x.literals⟩ := by
  intro n hn
  rcases List.mem_append.1 hn with hn | hn
  · obtain ⟨q, hq, hl⟩ := hx n hn
    exact ⟨q, List.mem_append_left _ hq, hl⟩
  · exact ⟨⟨m, rhs⟩, List.mem_append_right _ List.mem_cons_self, (List.mem_singleton.1 hn).symm⟩

theorem withSuffix (hx : x.UsesFresh) (s : Supply) (suffix : Suffix) :
    (x.withSuffix s suffix).1.UsesFresh := by
  cases suffix with
  | once => exact hx
  | optional => exact hx.extend
  | star => exact hx.extend
  | plus => exact hx.extend
  | other word => exact hx

end Lowered.UsesFresh

namespace Expr

theorem usesFresh_lowerSequence {as : List Atom}
    (h : ∀ a ∈ as, ∀ s, (lowerAtom s a).1.UsesFresh) (s : Supply) :
    (lowerSequence s as).1.UsesFresh := by
  induction as generalizing s with
  | nil => exact fun n hn => absurd hn List.not_mem_nil
  | cons a as ih =>
    rw [List.forall_mem_cons] at h
    rw [lowerSequence_cons]
    exact (h.1 s).append (ih h.2 _)

theorem usesFresh_lowerInto {e : List (List Atom)}
    (h : ∀ as ∈ e, ∀ a ∈ as, ∀ s, (lowerAtom s a).1.UsesFresh) (lhs : Name) (s : Supply) :
    (lowerInto lhs s e).1.UsesFresh := by
  induction e generalizing s with
  | nil => exact fun n hn => absurd hn List.not_mem_nil
  | cons as e ih =>
    rw [List.forall_mem_cons] at h
    rw [lowerInto_cons]
    exact ((usesFresh_lowerSequence h.1 s).close lhs).append (ih h.2 _)

theorem IsSpelledAtom.usesFresh {a : Atom} (h : IsSpelledAtom a) (s : Supply) :
    (lowerAtom s a).1.UsesFresh := by
  induction h generalizing s with
  | name hn => exact fun n hn => absurd hn List.not_mem_nil
  | @group e b hne _ ih =>
    by_cases hone : ∃ alternative, e = [alternative]
    · obtain ⟨alternative, rfl⟩ := hone
      rw [lowerAtom_group_singleton]
      exact (usesFresh_lowerSequence (ih alternative List.mem_cons_self) s).withSuffix _ _
    · rw [lowerAtom_group (not_exists.1 hone)]
      refine Lowered.UsesFresh.withSuffix ?_ _ _
      -- the group has an alternative, and it becomes a production of the group's name
      intro n hn
      rcases List.mem_cons.1 hn with rfl | hn
      · obtain ⟨alternative, ha⟩ := List.exists_mem_of_ne_nil e hne
        exact (spells_lowerInto _ _ e).exists_lhs _ (List.mem_map.2 ⟨alternative, ha, rfl⟩)
      · exact usesFresh_lowerInto ih _ _ n hn

end Expr

/-! ## 2. Outlines -/

/-- The names that a sequence of atoms becomes, up to the choice of the invented ones. -/
inductive IsOutline (fresh : List Name) : List Atom → List Name → Prop
  | nil : IsOutline fresh [] []
  /-- A name stays. -/
  | name {n : Name} {as : List Atom} {ns : List Name} (h : IsOutline fresh as ns) :
      IsOutline fresh (.ofName n :: as) (n :: ns)
  /-- Round brackets around one alternative are taken off. -/
  | round {alternative as : List Atom} {ns ms : List Name} (h : IsOutline fresh alternative ns)
      (h' : IsOutline fresh as ms) :
      IsOutline fresh (.group [alternative] .once none :: as) (ns ++ ms)
  /-- Any other group is an invented name. -/
  | invented {e : List (List Atom)} {b : Bracket} {n : Name} {as : List Atom} {ns : List Name}
      (hb : b ≠ .round ∨ ∀ alternative, e ≠ [alternative]) (hn : n ∈ fresh)
      (h : IsOutline fresh as ns) :
      IsOutline fresh (.group e b.suffix none :: as) (n :: ns)

namespace Lowered

/-- A piece in curly or square brackets stands under an invented name. -/
theorem exists_names_withSuffix (x : Lowered) (s : Supply) {b : Bracket} (hb : b ≠ .round) :
    ∃ n ∈ (x.withSuffix s b.suffix).1.fresh, (x.withSuffix s b.suffix).1.names = [n] := by
  cases b with
  | round => exact absurd rfl hb
  | curly => exact ⟨s.nextName .repetition, List.mem_append_right _ List.mem_cons_self, rfl⟩
  | square => exact ⟨s.nextName .option, List.mem_append_right _ List.mem_cons_self, rfl⟩

end Lowered

namespace Expr

/-- A group stands under an invented name, unless it is one alternative in round brackets. -/
theorem exists_names_lowerAtom (s : Supply) {e : List (List Atom)} {b : Bracket}
    (h : b ≠ .round ∨ ∀ alternative, e ≠ [alternative]) (span : Option Span) :
    ∃ n ∈ (lowerAtom s (.group e b.suffix span)).1.fresh,
      (lowerAtom s (.group e b.suffix span)).1.names = [n] := by
  by_cases hone : ∃ alternative, e = [alternative]
  · obtain ⟨alternative, rfl⟩ := hone
    rw [lowerAtom_group_singleton]
    exact Lowered.exists_names_withSuffix _ _ (h.resolve_right fun h => h alternative rfl)
  · rw [lowerAtom_group (not_exists.1 hone)]
    by_cases hb : b = .round
    · subst hb
      exact ⟨s.nextName .group, List.mem_cons_self, rfl⟩
    · exact Lowered.exists_names_withSuffix _ _ hb

/-- A sequence that can be spelled in names is lowered to its outline. -/
theorem isOutline_lowerSequence (s : Supply) (as : List Atom) (h : ∀ a ∈ as, IsSpelledAtom a)
    {fresh : List Name} (hf : (lowerSequence s as).1.fresh ⊆ fresh) :
    IsOutline fresh as (lowerSequence s as).1.names := by
  match as with
  | [] => exact .nil
  | a :: as =>
    rw [List.forall_mem_cons] at h
    rw [lowerSequence_cons, Lowered.fresh_append, List.append_subset] at hf
    have hrest := isOutline_lowerSequence (lowerAtom s a).2 as h.2 hf.2
    rw [lowerSequence_cons, Lowered.names_append]
    cases h.1 with
    | name hn => exact .name hrest
    | @group e b hne hspelled =>
      by_cases hb : b ≠ .round ∨ ∀ alternative, e ≠ [alternative]
      · obtain ⟨n, hn, hnames⟩ := exists_names_lowerAtom s hb none
        rw [hnames]
        exact .invented hb (hf.1 hn) hrest
      · obtain ⟨rfl, alternative, rfl⟩ : b = .round ∧ ∃ alternative, e = [alternative] := by
          simpa [not_or] using hb
        rw [lowerAtom_group_singleton] at hf hrest ⊢
        exact .round (isOutline_lowerSequence s alternative
          (hspelled alternative List.mem_cons_self) hf.1) hrest

/-- The productions of the left-hand side are the outlines of the alternatives, in order. -/
theorem forall₂_isOutline_lowerInto {lhs : Name} (s : Supply) (hs : lhs ∈ s.taken)
    {e : List (List Atom)} (h : ∀ as ∈ e, ∀ a ∈ as, IsSpelledAtom a) {fresh : List Name}
    (hf : (lowerInto lhs s e).1.fresh ⊆ fresh) :
    List.Forall₂ (IsOutline fresh) e (rhssOf (lowerInto lhs s e).1.productions lhs) := by
  induction e generalizing s with
  | nil => exact .nil
  | cons alternative rest ih =>
    rw [List.forall_mem_cons] at h
    rw [lowerInto_cons, Lowered.fresh_append, List.append_subset] at hf
    have hspells := spells_lowerSequence s alternative
    -- what the alternative needs has invented left-hand sides only
    have hneeds : rhssOf (lowerSequence s alternative).1.productions lhs = [] :=
      hspells.rhssOf_eq_nil List.not_mem_nil fun hn => hspells.notMem lhs hn hs
    have hown : rhssOf ((lowerSequence s alternative).1.close lhs).productions lhs =
        [(lowerSequence s alternative).1.names] := by
      rw [Lowered.close, rhssOf_append, hneeds, List.nil_append, rhssOf_eq_map (by simp)]
      rfl
    rw [lowerInto_cons, Lowered.productions_append, rhssOf_append, hown]
    exact .cons (isOutline_lowerSequence s alternative h.1 hf.1)
      (ih _ (hspells.taken_subset hs) h.2 hf.2)

end Expr

/-! ## 3. Blocks -/

/-- What one production is lowered to, and the names that are invented for it. -/
structure Block where
  fresh : List Name
  productions : List Production

/-- The production is lowered to the block. -/
inductive IsBlock (p : Production) : Block → Prop
  /-- Without marks, the production is left alone. -/
  | plain (h : hasMarks p.rhs = false) : IsBlock p ⟨[], [p]⟩
  /-- Otherwise, there is one production for each alternative, in their order, and behind them there
  are only productions of invented names, each of which has some. -/
  | marks {e : Expr} {fresh : List Name} {rhss : List (List Name)} {others : List Production}
      (h : hasMarks p.rhs = true) (he : Expr.ofNames p.rhs (some p.lhs) = .ok e)
      (hrhss : List.Forall₂ (IsOutline fresh) e rhss) (hothers : ∀ q ∈ others, q.lhs ∈ fresh)
      (hfresh : ∀ n ∈ fresh, ∃ q ∈ others, q.lhs = n) :
      IsBlock p ⟨fresh, rhss.map (⟨p.lhs, ·⟩) ++ others⟩

/-- Neither block has a production of a name that is invented for the other one. -/
def Block.Apart (b c : Block) : Prop :=
  (∀ n ∈ b.fresh, ∀ q ∈ c.productions, q.lhs ≠ n) ∧ ∀ n ∈ c.fresh, ∀ q ∈ b.productions, q.lhs ≠ n

/-- A production whose left-hand side is taken is lowered to a block. -/
theorem isBlock_of_lowerProduction {s s' : Supply} {p : Production} (hs : p.lhs ∈ s.taken)
    {block : List Production} {fresh : List Name}
    (h : lowerProduction s p = .ok ((block, fresh), s')) : IsBlock p ⟨fresh, block⟩ := by
  cases hm : hasMarks p.rhs with
  | false =>
    rw [lowerProduction, hm] at h
    cases h
    exact .plain hm
  | true =>
    cases he : Expr.ofNames p.rhs (some p.lhs) with
    | error fault =>
      rw [lowerProduction, hm, he] at h
      cases h
    | ok e =>
      rw [lowerProduction_of_ofNames s hm he] at h
      cases h
      have hspells := Expr.spells_lowerInto p.lhs s e
      have hspelled := (Expr.isSpelled_of_ofNames he).2
      rw [ownFirst, ← map_rhssOf]
      refine .marks hm he (Expr.forall₂_isOutline_lowerInto s hs hspelled (List.Subset.refl _))
        (fun q hq => ?_) fun n hn => ?_
      · obtain ⟨hq, hne⟩ := List.mem_filter.1 hq
        refine (hspells.lhs_mem q hq).resolve_left fun hl => ?_
        obtain ⟨-, -, hl⟩ := List.mem_map.1 hl
        simp [hl] at hne
      · obtain ⟨q, hq, rfl⟩ :=
          Expr.usesFresh_lowerInto (fun as has a ha => (hspelled as has a ha).usesFresh) p.lhs s n hn
        have hne : q.lhs ≠ p.lhs := fun hl => hspells.notMem _ hn (hl ▸ hs)
        exact ⟨q, List.mem_filter.2 ⟨hq, decide_eq_true hne⟩, rfl⟩

theorem IsBlock.exists_lhs {p : Production} {b : Block} (h : IsBlock p b) {n : Name}
    (hn : n ∈ b.fresh) : ∃ q ∈ b.productions, q.lhs = n := by
  cases h with
  | plain _ => exact absurd hn List.not_mem_nil
  | marks _ _ _ _ hfresh =>
    obtain ⟨q, hq, hl⟩ := hfresh n hn
    exact ⟨q, List.mem_append_right _ hq, hl⟩

/-- Productions whose left-hand sides are taken are lowered to blocks, in their order, which do not
meddle with each other. -/
theorem exists_blocks_of_lowerProductionsFrom {s : Supply} {ps : List Production}
    (hb : ∀ p ∈ ps, hasMarks p.rhs = true → Balanced p.rhs) (hs : ∀ p ∈ ps, p.lhs ∈ s.taken) :
    ∃ blocks : List Block, lowerProductionsFrom s ps =
        .ok (blocks.flatMap (·.productions), blocks.flatMap (·.fresh)) ∧
      List.Forall₂ IsBlock ps blocks ∧ blocks.Pairwise Block.Apart := by
  induction ps generalizing s with
  | nil => exact ⟨[], rfl, .nil, .nil⟩
  | cons p ps ih =>
    rw [List.forall_mem_cons] at hb hs
    obtain ⟨block, fresh, s', hp, hblock⟩ := exists_lowerProduction s hb.1
    obtain ⟨lowered, more, s'', hps, hlater⟩ := exists_lowerProductionsFrom s' hb.2
    obtain ⟨blocks, hblocks, hall, hapart⟩ := ih hb.2 fun q hq => hblock.taken_subset (hs.2 q hq)
    obtain ⟨rfl, rfl⟩ : lowered = blocks.flatMap (·.productions) ∧
        more = blocks.flatMap (·.fresh) := by
      simpa using hps.symm.trans hblocks
    refine ⟨⟨fresh, block⟩ :: blocks, ?_, .cons (isBlock_of_lowerProduction hs.1 hp) hall,
      .cons (fun c hc => ⟨fun n hn q hq => ?_, fun n hn q hq => ?_⟩) hapart⟩
    · rw [lowerProductionsFrom, hp]
      simp only [hblocks]
      rfl
    · -- what is invented here is not taken, and later it is not invented again
      rintro rfl
      rcases hlater.lhs_mem q (List.mem_flatMap.2 ⟨c, hc, hq⟩) with hl | hl
      · obtain ⟨r, hr, hl⟩ := List.mem_map.1 hl
        exact hblock.notMem _ hn (hl ▸ hs.2 r hr)
      · exact hblock.notMem_of_mem hlater.toInvents hn hl
    · rintro rfl
      refine hlater.notMem _ (List.mem_flatMap.2 ⟨c, hc, hn⟩) ?_
      rcases hblock.lhs_mem q hq with hl | hl
      · rw [List.mem_singleton.1 hl]
        exact hblock.taken_subset hs.1
      · exact hblock.mem_taken.2 (Or.inl hl)

/-- Invented names are longer than marks. -/
theorem Purpose.isMark_numbered (p : Purpose) (k : Nat) : isMark (p.numbered k) = false := by
  rw [Bool.eq_false_iff, Ne, isMark_iff]
  rintro ⟨m, h⟩
  have hlength := p.five_le_length_numbered k
  have hmark : m.name.length = 2 := by rcases m with _ | (_ | _ | _) | (_ | _ | _) <;> rfl
  rw [h, hmark] at hlength
  exact absurd hlength (by decide)

/-- Productions without marks are left alone. -/
theorem lowerProductionsFrom_of_not_hasMarks {ps : List Production}
    (h : ∀ p ∈ ps, hasMarks p.rhs = false) (s : Supply) :
    lowerProductionsFrom s ps = .ok (ps, []) := by
  induction ps with
  | nil => rfl
  | cons p ps ih =>
    rw [List.forall_mem_cons] at h
    rw [lowerProductionsFrom, lowerProduction, h.1]
    simp only [Bool.false_eq_true, if_false, ih h.2]
    rfl

/-- **The shape of lowered productions.**  Let productions be given whose right-hand sides are balanced
and whose left-hand sides are taken.  They are lowered to blocks, one for each, in their order, and no
block has a production of a name that is invented for another one.  The invented names are different
from each other and from what is taken, and each is a left-hand side.  The right-hand sides consist
of the names given, marks excepted, and of invented ones.  Hence lowering once more changes nothing.
-/
theorem exists_blocks_lowerProductions {ps : List Production} {taken : List Name}
    (hb : ∀ p ∈ ps, Balanced p.rhs) (ht : ∀ p ∈ ps, p.lhs ∈ taken) :
    ∃ (blocks : List Block) (lowered : List Production) (fresh : List Name),
      lowerProductions ps taken = .ok (lowered, fresh) ∧
      lowered = blocks.flatMap (·.productions) ∧ fresh = blocks.flatMap (·.fresh) ∧
      List.Forall₂ IsBlock ps blocks ∧ blocks.Pairwise Block.Apart ∧
      fresh.Nodup ∧ (∀ n ∈ fresh, n ∉ taken ∧ ∃ q ∈ lowered, q.lhs = n) ∧
      (∀ q ∈ lowered, ∀ n ∈ q.rhs, isMark n = false ∧ ((∃ p ∈ ps, n ∈ p.rhs) ∨ n ∈ fresh)) ∧
      lowerProductions lowered (taken ++ fresh) = .ok (lowered, []) := by
  obtain ⟨blocks, hblocks, hall, hapart⟩ :=
    exists_blocks_of_lowerProductionsFrom (s := .ofTaken taken) (fun p hp _ => hb p hp) ht
  obtain ⟨lowered, fresh, s', hl, hspells⟩ :=
    exists_lowerProductionsFrom (.ofTaken taken) fun p hp _ => hb p hp
  obtain ⟨rfl, rfl⟩ : lowered = blocks.flatMap (·.productions) ∧
      fresh = blocks.flatMap (·.fresh) := by
    simpa using hl.symm.trans hblocks
  have hrhs : ∀ q ∈ blocks.flatMap (·.productions), ∀ n ∈ q.rhs, isMark n = false ∧
      ((∃ p ∈ ps, n ∈ p.rhs) ∨ n ∈ blocks.flatMap (·.fresh)) := by
    intro q hq n hn
    rcases hspells.rhs_mem q hq n hn with hn | hn
    · obtain ⟨p, hp, hn⟩ := mem_namesOf_flatMap.1 hn
      obtain ⟨hn, hm⟩ := mem_namesOf_plainLeaves.1 hn
      exact ⟨hm, Or.inl ⟨p, hp, hn⟩⟩
    · obtain ⟨purpose, k, rfl⟩ := hspells.numbered n hn
      exact ⟨purpose.isMark_numbered k, Or.inr hn⟩
  refine ⟨blocks, _, _, hl, rfl, rfl, hall, hapart, hspells.nodup, fun n hn => ⟨?_, ?_⟩, hrhs, ?_⟩
  · exact hspells.notMem n hn
  · obtain ⟨b, hb, hn⟩ := List.mem_flatMap.1 hn
    obtain ⟨i, hi, rfl⟩ := List.getElem_of_mem hb
    obtain ⟨q, hq, hlhs⟩ := (hall.get (hall.length_eq ▸ hi) hi).exists_lhs hn
    exact ⟨q, List.mem_flatMap.2 ⟨_, hb, hq⟩, hlhs⟩
  · refine lowerProductionsFrom_of_not_hasMarks (fun q hq => ?_) _
    rw [hasMarks, List.any_eq_false]
    intro n hn
    rw [(hrhs q hq n hn).1]
    exact Bool.false_ne_true

/-- A production with a repetition in a group, between two without marks; the first name for the
group is taken. -/
theorem exists_blocks_of_group :
    let ps : List Production := [⟨"A", ["b"]⟩, ⟨"S", ["a", (Mark.opening .round).name,
      (Mark.opening .curly).name, "A", (Mark.closing .curly).name, Mark.bar.name,
      (Mark.closing .round).name, Mark.bar.name, "b"]⟩, ⟨"A", []⟩]
    let lowered : List Production := [⟨"A", ["b"]⟩, ⟨"S", ["a", "__grp2"]⟩, ⟨"S", ["b"]⟩,
      ⟨"__rep1", []⟩, ⟨"__rep1", ["A", "__rep1"]⟩, ⟨"__grp2", ["__rep1"]⟩, ⟨"__grp2", []⟩, ⟨"A", []⟩]
    let taken : List Name := ["__grp1", "S", "A", "a", "b"]
    let invented : List Name := ["__grp2", "__rep1"]
    (∀ p ∈ ps, Balanced p.rhs) ∧
      lowerProductions ps taken = .ok (lowered, invented) ∧
      ∃ blocks : List Block, lowered = blocks.flatMap (·.productions) ∧
        List.Forall₂ IsBlock ps blocks ∧ blocks.Pairwise Block.Apart ∧
        lowerProductions lowered (taken ++ invented) = .ok (lowered, []) := by
  intro ps lowered taken invented
  have hb : ∀ p ∈ ps, Balanced p.rhs := by
    simp only [ps, List.forall_mem_cons]
    refine ⟨(exists_ofNames_iff none).1 ⟨_, rfl⟩, (exists_ofNames_iff none).1 ⟨_, rfl⟩, .nil, ?_⟩
    exact fun p hp => absurd hp List.not_mem_nil
  have hlowered : lowerProductions ps taken = .ok (lowered, invented) := by decide
  obtain ⟨blocks, lowered', fresh, hl, hflat, -, hall, hapart, -, -, -, hagain⟩ :=
    @exists_blocks_lowerProductions ps taken hb (by decide)
  obtain ⟨rfl, rfl⟩ : lowered = lowered' ∧ invented = fresh := by
    simpa using hlowered.symm.trans hl
  exact ⟨hb, hlowered, blocks, hflat, hall, hapart, hagain⟩

end Lookahead
