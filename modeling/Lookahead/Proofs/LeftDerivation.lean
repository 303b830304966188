import Lookahead.Proofs.Derivation

/-!
# Leftmost derivations

## 1. One place

The leftmost non-terminal of a sequence has one place, so two leftmost steps from one sequence work
at the same place (`eq_of_isWord_of_append_cons`), and what the finished part of a sentential form
says stays as it is.

## 2. From any order to the leftmost one

A derivation may replace names in any order.  `HeadDerives` is the order in which a reader would do
it: at the head of what is left, either the name is kept for good, or it is replaced.  Every
derivation can be brought into this order (`Derives.headDerives`), because a step somewhere in the
middle can wait until the head of the sequence has got there.  A derivation of a word in this order
is a leftmost derivation (`Derives.exists_leftDerives`).

## 3. Contexts

If every name derives a word, each occurrence of a name in a sentential form, in whatever order the
form was derived, occurs in a leftmost form as well, and what stands behind it there derives what
stood behind it before (`Derives.exists_leftContext`).
-/

namespace Lookahead

variable {c : Catalog} {ps : List Production}

/-! ## 1. One place -/

theorem exists_mem_alternativesOf {p : Production} (hp : p ∈ ps) :
    ∃ a ∈ alternativesOf ps p.lhs, a.lhs = p.lhs ∧ a.rhs = p.rhs := by
  obtain ⟨i, hi⟩ := List.mem_iff_getElem?.1 (mem_rhssOf.2 hp)
  exact ⟨⟨p.lhs, i, p.rhs⟩, mem_alternativesOf.2 ⟨rfl, hi⟩, rfl, rfl⟩

theorem mem_of_mem_alternativesOf {n : Name} {a : Alternative} (ha : a ∈ alternativesOf ps n) :
    (⟨n, a.rhs⟩ : Production) ∈ ps :=
  mem_rhssOf.1 (List.mem_of_getElem? (mem_alternativesOf.1 ha).2)

theorem Checked.mem_nonterminals_of_alternative (h : Checked c ps) {n : Name} {a : Alternative}
    (ha : a ∈ alternativesOf ps n) : n ∈ c.nonterminals :=
  h.lhs_mem (mem_of_mem_alternativesOf ha)

theorem Catalog.isWord_nil (c : Catalog) : c.IsWord [] := fun _ hn => absurd hn List.not_mem_nil

theorem Catalog.isWord_cons {n : Name} {u : List Name} :
    c.IsWord (n :: u) ↔ n ∈ c.terminals ∧ c.IsWord u := List.forall_mem_cons

theorem Catalog.IsWord.append {u v : List Name} (hu : c.IsWord u) (hv : c.IsWord v) :
    c.IsWord (u ++ v) := fun n hn => (List.mem_append.1 hn).elim (hu n) (hv n)

theorem Catalog.IsWord.of_append {u v : List Name} (h : c.IsWord (u ++ v)) :
    c.IsWord u ∧ c.IsWord v :=
  ⟨fun n hn => h n (List.mem_append_left v hn), fun n hn => h n (List.mem_append_right u hn)⟩

/-- The first name that is no terminal has one place. -/
theorem eq_of_isWord_of_append_cons {before before' after after' : List Name} {n n' : Name}
    (hb : c.IsWord before) (hb' : c.IsWord before') (hn : n ∉ c.terminals)
    (hn' : n' ∉ c.terminals) (h : before ++ n :: after = before' ++ n' :: after') :
    before = before' ∧ n = n' ∧ after = after' := by
  rcases exists_of_append_eq_append_cons h with ⟨mid, rfl, _⟩ | ⟨mid, hm, rfl⟩
  · exact absurd (hb n' (List.mem_append_right before' List.mem_cons_self)) hn'
  · cases mid with
    | nil =>
      rw [List.nil_append] at hm
      obtain ⟨rfl, rfl⟩ := List.cons.inj hm
      exact ⟨(List.append_nil before).symm, rfl, rfl⟩
    | cons m mid =>
      rw [List.cons_append] at hm
      obtain ⟨rfl, _⟩ := List.cons.inj hm
      exact absurd (hb' n (List.mem_append_right before List.mem_cons_self)) hn

/-- A leftmost derivation that starts from a word makes no step. -/
theorem LeftDerives.eq_nil_of_isWord (h : Checked c ps) {u w : List Name} {as : List Alternative}
    (hd : LeftDerives c ps u as w) (hu : c.IsWord u) : as = [] := by
  cases hd with
  | nil => rfl
  | cons step _ =>
    obtain ⟨ha, _, after⟩ := step
    have hn := hu _ (List.mem_append_right _ List.mem_cons_self)
    exact absurd hn (h.lhs_notMem (mem_of_mem_alternativesOf ha))

/-! ## 2. From any order to the leftmost one -/

/-- Derivations that work off a sequence from its head. -/
inductive HeadDerives (ps : List Production) : List Name → List Name → Prop
  | nil : HeadDerives ps [] []
  /-- The head is kept for good. -/
  | keep (n : Name) {u w : List Name} (h : HeadDerives ps u w) : HeadDerives ps (n :: u) (n :: w)
  /-- The head is replaced. -/
  | expand {p : Production} (hp : p ∈ ps) {u w : List Name} (h : HeadDerives ps (p.rhs ++ u) w) :
      HeadDerives ps (p.lhs :: u) w

namespace HeadDerives

theorem refl (u : List Name) : HeadDerives ps u u := by
  induction u with
  | nil => exact nil
  | cons n u ih => exact keep n ih

/-- A step in the middle waits until the head of the sequence has got to its place. -/
theorem of_step {p : Production} (hp : p ∈ ps) {before after w : List Name}
    (h : HeadDerives ps (before ++ p.rhs ++ after) w) :
    HeadDerives ps (before ++ p.lhs :: after) w := by
  generalize hx : before ++ p.rhs ++ after = x at h
  induction h generalizing before with
  | nil =>
    obtain ⟨h, rfl⟩ := List.append_eq_nil_iff.1 hx
    obtain ⟨rfl, hr⟩ := List.append_eq_nil_iff.1 h
    refine expand hp ?_
    rw [hr]
    exact nil
  | @keep n u w h ih =>
    cases before with
    | nil =>
      refine expand hp ?_
      rw [← List.nil_append p.rhs, hx]
      exact keep n h
    | cons m before =>
      rw [List.cons_append, List.cons_append] at hx
      obtain ⟨rfl, rfl⟩ := List.cons.inj hx
      rw [List.cons_append]
      exact keep m (ih rfl)
  | @expand q hq u w h ih =>
    cases before with
    | nil =>
      refine expand hp ?_
      rw [← List.nil_append p.rhs, hx]
      exact expand hq h
    | cons m before =>
      rw [List.cons_append, List.cons_append] at hx
      obtain ⟨rfl, rfl⟩ := List.cons.inj hx
      rw [List.cons_append]
      refine expand hq ?_
      rw [← List.append_assoc]
      exact ih (by simp only [List.append_assoc])

end HeadDerives

/-- Every derivation can be brought into the order from the head. -/
theorem Derives.headDerives {u w : List Name} (h : Derives ps u w) : HeadDerives ps u w := by
  induction h using Relation.ReflTransGen.head_induction_on with
  | refl => exact .refl w
  | head step _ ih =>
    obtain ⟨hp, before, after⟩ := step
    exact ih.of_step hp

/-- From the head, a word is derived by leftmost steps, whatever stands around. -/
theorem HeadDerives.exists_leftDerives {u w : List Name} (h : HeadDerives ps u w)
    (hw : c.IsWord w) {before : List Name} (hb : c.IsWord before) (after : List Name) :
    ∃ as, LeftDerives c ps (before ++ u ++ after) as (before ++ w ++ after) := by
  induction h generalizing before with
  | nil => exact ⟨[], .nil _⟩
  | @keep n u w h ih =>
    -- the name that is kept joins the finished part
    obtain ⟨hn, hw⟩ := Catalog.isWord_cons.1 hw
    obtain ⟨as, has⟩ := ih hw (hb.append (Catalog.isWord_cons.2 ⟨hn, c.isWord_nil⟩))
    refine ⟨as, ?_⟩
    simpa only [List.append_assoc, List.singleton_append] using has
  | @expand p hp u w h ih =>
    obtain ⟨as, has⟩ := ih hw hb
    obtain ⟨a, ha, hl, hr⟩ := exists_mem_alternativesOf hp
    refine ⟨a :: as, .cons (v := before ++ a.rhs ++ (u ++ after)) ?_ ?_⟩
    · rw [List.append_assoc, List.cons_append, ← hl]
      exact .mk (hl ▸ ha) hb (u ++ after)
    · rw [hr]
      simpa only [List.append_assoc] using has

/-- A word can be derived by leftmost steps, whatever stands around. -/
theorem Derives.exists_leftDerives {u w : List Name} (h : Derives ps u w) (hw : c.IsWord w)
    {before : List Name} (hb : c.IsWord before) (after : List Name) :
    ∃ as, LeftDerives c ps (before ++ u ++ after) as (before ++ w ++ after) :=
  h.headDerives.exists_leftDerives hw hb after

/-! ## 3. Contexts -/

/-- Sequences of names that derive words derive words. -/
theorem exists_word_of_forall_mem {u : List Name}
    (h : ∀ n ∈ u, ∃ w, c.IsWord w ∧ Derives ps [n] w) : ∃ w, c.IsWord w ∧ Derives ps u w := by
  induction u with
  | nil => exact ⟨[], c.isWord_nil, .refl []⟩
  | cons n u ih =>
    obtain ⟨v, hv, hnv⟩ := h n List.mem_cons_self
    obtain ⟨w, hw, huw⟩ := ih fun m hm => h m (List.mem_cons_of_mem n hm)
    exact ⟨v ++ w, hv.append hw, hnv.append huw⟩

/-- A name in a sentential form occurs in a leftmost one too, in front of something from which what
stood behind it can be derived. -/
theorem Derives.exists_leftContext {s n : Name} {before after : List Name}
    (h : Derives ps [s] (before ++ n :: after))
    (productive : ∀ p ∈ ps, ∀ m ∈ p.rhs, ∃ w, c.IsWord w ∧ Derives ps [m] w) :
    ∃ as w after', LeftDerives c ps [s] as (w ++ n :: after') ∧ c.IsWord w ∧
      Derives ps after' after := by
  generalize hx : before ++ n :: after = x at h
  induction h generalizing before n after with
  | refl =>
    cases before with
    | nil =>
      obtain ⟨rfl, rfl⟩ := List.cons.inj hx
      exact ⟨[], [], [], .nil _, c.isWord_nil, .refl []⟩
    | cons m before => exact absurd (List.cons.inj hx).2 (by simp)
  | tail _ step ih =>
    subst hx
    cases step.origin with
    | front hp mid rest hu ha =>
      obtain ⟨as, w, after', has, hw, hd⟩ := ih hu.symm
      refine ⟨as, w, after', has, hw, hd.trans ?_⟩
      rw [ha]
      exact .single (Step.mk hp mid rest)
    | @inside p hp left mid right rest hu hr hb ha =>
      -- the step is made at the leftmost place, and what it writes in front is finished
      obtain ⟨as, w, after', has, hw, hd⟩ := ih hu.symm
      obtain ⟨x, hx, hdx⟩ := exists_word_of_forall_mem (u := mid) fun m hm =>
        productive p hp m (hr ▸ List.mem_append_left _ hm)
      obtain ⟨bs, hbs⟩ := hdx.exists_leftDerives hx hw (n :: (right ++ after'))
      obtain ⟨a, ha', hl, hr'⟩ := exists_mem_alternativesOf hp
      have step : LeftDerives c ps (w ++ p.lhs :: after') [a] (w ++ p.rhs ++ after') := by
        rw [← hl, ← hr']
        exact .cons (.mk (hl ▸ ha') hw after') (.nil _)
      rw [hr] at step
      simp only [List.append_assoc, List.cons_append] at step hbs
      refine ⟨as ++ ([a] ++ bs), w ++ x, right ++ after', ?_, hw.append hx, ?_⟩
      · rw [List.append_assoc]
        exact has.trans (step.trans hbs)
      · rw [ha]
        exact hd.append_left right
    | @behind p hp left mid hu hb =>
      have hx : (left ++ p.lhs :: mid) ++ n :: after = left ++ p.lhs :: (mid ++ n :: after) := by
        rw [List.append_assoc, List.cons_append]
      exact ih (hx.trans hu.symm)

end Lookahead
