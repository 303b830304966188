import Lookahead.Proofs.Moves
import Lookahead.Source.Phrase
import Lookahead.Source.Piece

/-!
# Reading back what is written

A rule, written down in pieces, is read back.  Places are forgotten, since the pieces do not tell
them; apart from that, the reader ends with what was written.

## 1. Tokens and pieces

What a token says determines its kind, and so what the reader does with it.

## 2. Inside a rule

The atom that waits for a suffix belongs to what has been read just as the level does, so only the
**settled** level counts.  `TakesTo` says that a list of tokens leads from one settled level to
another, whatever waits in the beginning.

## 3. Expressions

The proof goes through atoms, sequences and expressions.  A group is read at a level of its own, so
everything is stated for any open parentheses.  Not every expression is read back: the reader
produces no unknown leaf, no suffix without a meaning and no group without an alternative
(`Expr.Readable`).

## 4. Rules and directives

From there, rules are read back one by one (`read_rules`), and directives are followed
(`read_directives`).
-/

namespace Lookahead

open Text (literal)

/-! ## 1. Tokens and pieces -/

namespace Token

variable [Platform] {t : Token}

theorem kind_of_piece_name {n : Name} (h : t.piece = .name n) :
    t.kind = .identifier ∧ t.name = n := by
  unfold piece at h
  split at h
  · rename_i hk
    exact ⟨hk, Piece.name.inj h⟩
  · split at h <;> cases h
  · split at h <;> cases h
  · cases h

theorem kind_of_piece_mark {k : TokenKind} (h : t.piece = .mark k) : t.kind = k := by
  unfold piece at h
  split at h
  · cases h
  · split at h
    · cases h
    · exact Piece.mark.inj h
  · split at h
    · cases h
    · exact Piece.mark.inj h
  · exact Piece.mark.inj h

theorem literal_of_piece_literal {s : Name} (h : t.piece = .literal s) :
    (t.kind = .doubleQuoted ∨ t.kind = .singleQuoted) ∧
      literal t.lexeme.toList = .ok s := by
  unfold piece at h
  split at h
  · cases h
  · rename_i hk
    split at h
    · cases h
      exact ⟨Or.inl hk, ‹_›⟩
    · cases h
  · rename_i hk
    split at h
    · cases h
      exact ⟨Or.inr hk, ‹_›⟩
    · cases h
  · cases h

end Token

/-! ## 2. Inside a rule -/

namespace Expr

theorem sequenceWithoutSpans_append (as bs : List Atom) :
    sequenceWithoutSpans (as ++ bs) = sequenceWithoutSpans as ++ sequenceWithoutSpans bs := by
  induction as with
  | nil => rfl
  | cons a as ih =>
    rw [List.cons_append, sequenceWithoutSpans, sequenceWithoutSpans, ih, List.cons_append]

theorem withoutSpans_append (e e' : List (List Atom)) :
    withoutSpans (e ++ e') = withoutSpans e ++ withoutSpans e' := by
  induction e with
  | nil => rfl
  | cons alternative rest ih =>
    rw [List.cons_append, withoutSpans, withoutSpans, ih, List.cons_append]

end Expr

namespace Level

/-- A level without its places. -/
def withoutSpans (l : Level) : Level :=
  ⟨Expr.withoutSpans l.finished, Expr.sequenceWithoutSpans l.current⟩

theorem withoutSpans_push (l : Level) (a : Atom) :
    (l.push a).withoutSpans = l.withoutSpans.push (Expr.atomWithoutSpans a) := by
  rw [withoutSpans, push, Expr.sequenceWithoutSpans_append]
  rfl

theorem alternatives_withoutSpans (l : Level) :
    l.withoutSpans.alternatives = Expr.withoutSpans l.alternatives := by
  rw [alternatives, alternatives, Expr.withoutSpans_append]
  rfl

theorem withoutSpans_bar (l : Level) : l.bar.withoutSpans = l.withoutSpans.bar := by
  rw [bar, bar, alternatives_withoutSpans]
  rfl

/-- More atoms in the alternative being read. -/
def extend (l : Level) (as : List Atom) : Level := ⟨l.finished, l.current ++ as⟩

end Level

namespace Reading

variable [Platform]

/-- A token that is taken. -/
theorem foldlM_step_cons {r r' : Reading} {t : Token} (h : r.step t = .ok r') (ts : List Token) :
    (t :: ts).foldlM step r = ts.foldlM step r' := by
  rw [List.foldlM_cons, h]
  rfl

/-- If tokens are taken, then the first of them is, and so are the others. -/
theorem exists_of_foldlM_cons {r r' : Reading} {t : Token} {ts : List Token}
    (h : (t :: ts).foldlM step r = .ok r') :
    ∃ r₁, r.step t = .ok r₁ ∧ ts.foldlM step r₁ = .ok r' := by
  cases hs : r.step t with
  | error e =>
    rw [List.foldlM_cons, hs] at h
    cases h
  | ok r₁ => exact ⟨r₁, rfl, foldlM_step_cons hs ts ▸ h⟩

theorem exists_of_foldlM_append {r r' : Reading} {ts us : List Token}
    (h : (ts ++ us).foldlM step r = .ok r') :
    ∃ r₁, ts.foldlM step r = .ok r₁ ∧ us.foldlM step r₁ = .ok r' := by
  induction ts generalizing r with
  | nil => exact ⟨r, rfl, h⟩
  | cons t ts ih =>
    obtain ⟨r₁, hs, h⟩ := exists_of_foldlM_cons h
    obtain ⟨r₂, hts, hus⟩ := ih h
    exact ⟨r₂, (foldlM_step_cons hs ts).trans hts, hus⟩

/-- Tokens that are taken. -/
theorem foldlM_step_append {r r' : Reading} {ts : List Token} (h : ts.foldlM step r = .ok r')
    (us : List Token) : (ts ++ us).foldlM step r = us.foldlM step r' := by
  rw [List.foldlM_append, h]
  rfl

variable {d : Declaration} {name last t : Token} {outer : List (Token × Level)} {level : Level}
  {pending : Option Atom}

theorem step_name {n : Name} (h : t.piece = .name n) :
    step ⟨d, .body name last outer level pending⟩ t =
      .ok ⟨d, .body name t outer (level.settle pending)
        (some (.leaf (.name n) .once (some t.span)))⟩ := by
  obtain ⟨hk, rfl⟩ := t.kind_of_piece_name h
  exact (Moves.name hk).step_eq

theorem step_literal {s : Name} (h : t.piece = .literal s) :
    step ⟨d, .body name last outer level pending⟩ t =
      .ok ⟨d, .body name t outer (level.settle pending)
        (some (.leaf (.literal s) .once (some t.span)))⟩ := by
  obtain ⟨hk, hs⟩ := t.literal_of_piece_literal h
  exact (Moves.literal hk hs).step_eq

/-- The reader takes the tokens inside a rule, and what it has read at the innermost level grows
from `l` to `l'`, places aside. -/
def TakesTo (outer : List (Token × Level)) (l : Level) (ts : List Token) (l' : Level) : Prop :=
  ∀ d name last level pending, (Level.settle level pending).withoutSpans = l →
    ∃ last' level' pending', ts.foldlM step ⟨d, .body name last outer level pending⟩ =
        .ok ⟨d, .body name last' outer level' pending'⟩ ∧
      (Level.settle level' pending').withoutSpans = l'

namespace TakesTo

variable {l l' l'' : Level} {ts us : List Token}

theorem nil (outer : List (Token × Level)) (l : Level) : TakesTo outer l [] l :=
  fun _ _ last level pending h => ⟨last, level, pending, rfl, h⟩

theorem append (h : TakesTo outer l ts l') (h' : TakesTo outer l' us l'') :
    TakesTo outer l (ts ++ us) l'' := by
  intro d name last level pending hl
  obtain ⟨last', level', pending', hread, hl'⟩ := h d name last level pending hl
  obtain ⟨last'', level'', pending'', hread', hl''⟩ := h' d name last' level' pending' hl'
  exact ⟨last'', level'', pending'', (foldlM_step_append hread us).trans hread', hl''⟩

theorem bar (h : t.kind = .bar) (outer : List (Token × Level)) (l : Level) :
    TakesTo outer l [t] l.bar := by
  intro d name last level pending hl
  refine ⟨t, (level.settle pending).bar, none, foldlM_step_cons (Moves.bar h).step_eq [], ?_⟩
  rw [← hl, ← Level.withoutSpans_bar]
  rfl

end TakesTo

end Reading

/-! ## 3. Expressions -/

namespace Expr

mutual

/-- Whether the reader can produce an atom. -/
def AtomReadable : Atom → Prop
  | .leaf l suffix _ => l ≠ .unknown ∧ ∀ word, suffix ≠ .other word
  | .group alternatives suffix _ =>
    alternatives ≠ [] ∧ Readable alternatives ∧ ∀ word, suffix ≠ .other word

/-- Whether the reader can produce a sequence. -/
def SequenceReadable : List Atom → Prop
  | [] => True
  | a :: as => AtomReadable a ∧ SequenceReadable as

/-- Whether the reader can produce the alternatives of an expression. -/
def Readable : List (List Atom) → Prop
  | [] => True
  | alternative :: rest => SequenceReadable alternative ∧ Readable rest

end

end Expr

namespace Reading

variable [Platform]

/-- The waiting atom gets its suffix. -/
theorem read_suffix {a : Atom} (ha : a.withSuffix .once = a) {suffix : Suffix}
    (hs : ∀ word, suffix ≠ .other word) {ts : List Token}
    (hts : ts.map Token.piece = suffix.pieces) (d : Declaration) (name last : Token)
    (outer : List (Token × Level)) (level : Level) :
    ∃ last' level' pending', ts.foldlM step ⟨d, .body name last outer level (some a)⟩ =
        .ok ⟨d, .body name last' outer level' pending'⟩ ∧
      Level.settle level' pending' = level.push (a.withSuffix suffix) := by
  have hone : ∀ k, k.suffix? = some suffix → ts.map Token.piece = [.mark k] →
      ∃ last' level' pending', ts.foldlM step ⟨d, .body name last outer level (some a)⟩ =
          .ok ⟨d, .body name last' outer level' pending'⟩ ∧
        Level.settle level' pending' = level.push (a.withSuffix suffix) := by
    intro k hk hts
    obtain ⟨t, rfl, ht⟩ := List.map_eq_singleton_iff.1 hts
    rw [← t.kind_of_piece_mark ht] at hk
    exact ⟨t, level.push (a.withSuffix suffix), none, foldlM_step_cons (Moves.suffix hk).step_eq [],
      rfl⟩
  cases suffix with
  | once =>
    obtain rfl := List.map_eq_nil_iff.1 hts
    exact ⟨last, level, some a, rfl, by rw [ha]; rfl⟩
  | optional => exact hone .question rfl hts
  | star => exact hone .star rfl hts
  | plus => exact hone .plus rfl hts
  | other word => exact absurd rfl (hs word)

/-- A base that is read into an atom without a suffix, and a suffix behind it. -/
theorem TakesTo.suffixed {outer : List (Token × Level)} {ts us : List Token} {l : Level} {a : Atom}
    {suffix : Suffix} (hs : ∀ word, suffix ≠ .other word)
    (hus : us.map Token.piece = suffix.pieces)
    (h : ∀ d name last level pending, (Level.settle level pending).withoutSpans = l →
      ∃ last' level' b, ts.foldlM step ⟨d, .body name last outer level pending⟩ =
          .ok ⟨d, .body name last' outer level' (some b)⟩ ∧ Level.withoutSpans level' = l ∧
        b.withSuffix .once = b ∧
        Expr.atomWithoutSpans (b.withSuffix suffix) = Expr.atomWithoutSpans a) :
    TakesTo outer l (ts ++ us) (l.push (Expr.atomWithoutSpans a)) := by
  intro d name last level pending hl
  obtain ⟨last', level', b, hread, hl', hb, ha⟩ := h d name last level pending hl
  obtain ⟨last'', level'', pending'', hread', hl''⟩ :=
    read_suffix hb hs hus d name last' outer level'
  refine ⟨last'', level'', pending'', (foldlM_step_append hread us).trans hread', ?_⟩
  rw [hl'', Level.withoutSpans_push, hl', ha]

mutual

theorem takesTo_atom (a : Atom) (ha : Expr.AtomReadable a) {ts : List Token}
    (hts : ts.map Token.piece = Expr.atomPieces a) (outer : List (Token × Level)) (l : Level) :
    TakesTo outer l ts (l.push (Expr.atomWithoutSpans a)) := by
  match a with
  | .leaf (.name n) suffix span =>
    obtain ⟨t, us, rfl, ht, hus⟩ := List.map_eq_cons_iff.1 hts
    rw [← List.singleton_append]
    refine TakesTo.suffixed ha.2 hus fun d name last level pending hl => ?_
    exact ⟨t, _, _, foldlM_step_cons (step_name ht) [], hl, rfl, rfl⟩
  | .leaf (.literal s) suffix span =>
    obtain ⟨t, us, rfl, ht, hus⟩ := List.map_eq_cons_iff.1 hts
    rw [← List.singleton_append]
    refine TakesTo.suffixed ha.2 hus fun d name last level pending hl => ?_
    exact ⟨t, _, _, foldlM_step_cons (step_literal ht) [], hl, rfl, rfl⟩
  | .leaf .unknown suffix span => exact absurd rfl ha.1
  | .group alternatives suffix span =>
    rw [Expr.AtomReadable] at ha
    obtain ⟨hne, halternatives, hs⟩ := ha
    rw [Expr.atomPieces] at hts
    obtain ⟨t, us, rfl, ht, hus⟩ := List.map_eq_cons_iff.1 hts
    obtain ⟨inner, us, rfl, hinner, hus⟩ := List.map_eq_append_iff.1 hus
    obtain ⟨t', us, rfl, ht', hus⟩ := List.map_eq_cons_iff.1 hus
    have ht := t.kind_of_piece_mark ht
    have ht' := t'.kind_of_piece_mark ht'
    rw [List.append_cons, ← List.cons_append]
    refine TakesTo.suffixed hs hus fun d name last level pending hl => ?_
    -- the alternatives are read at an empty level, inside one more parenthesis
    obtain ⟨l', hl', hread⟩ := takesTo_expr alternatives hne halternatives hinner
      ((t, level.settle pending) :: outer)
    obtain ⟨last', level', pending', hread, hlevel⟩ := hread d name t .empty none rfl
    refine ⟨t', level.settle pending, .group (level'.settle pending').alternatives .once
      (some t.span), ?_, hl, rfl, ?_⟩
    · rw [foldlM_step_cons (Moves.leftParen ht).step_eq, foldlM_step_append hread]
      exact foldlM_step_cons (Moves.rightParen ht').step_eq []
    · rw [Atom.withSuffix, Expr.atomWithoutSpans, Expr.atomWithoutSpans, ← hl', ← hlevel,
        Level.alternatives_withoutSpans]

theorem takesTo_sequence (as : List Atom) (has : Expr.SequenceReadable as) {ts : List Token}
    (hts : ts.map Token.piece = Expr.sequencePieces as) (outer : List (Token × Level))
    (l : Level) : TakesTo outer l ts (l.extend (Expr.sequenceWithoutSpans as)) := by
  match as with
  | [] =>
    obtain rfl := List.map_eq_nil_iff.1 hts
    have hl : l.extend (Expr.sequenceWithoutSpans []) = l := by
      rw [Expr.sequenceWithoutSpans, Level.extend, List.append_nil]
    rw [hl]
    exact .nil outer l
  | a :: as =>
    rw [Expr.SequenceReadable] at has
    rw [Expr.sequencePieces] at hts
    obtain ⟨ts, us, rfl, hts, hus⟩ := List.map_eq_append_iff.1 hts
    have hread := (takesTo_atom a has.1 hts outer l).append
      (takesTo_sequence as has.2 hus outer _)
    rwa [Level.extend, Level.push, List.append_assoc] at hread

/-- Alternatives, each behind a bar. -/
theorem takesTo_rest (rest : List (List Atom)) (hrest : Expr.Readable rest) {ts : List Token}
    (hts : ts.map Token.piece = Expr.restPieces rest) (outer : List (Token × Level)) (l : Level) :
    ∃ l', Level.alternatives l' = l.alternatives ++ Expr.withoutSpans rest ∧
      TakesTo outer l ts l' := by
  match rest with
  | [] =>
    obtain rfl := List.map_eq_nil_iff.1 hts
    exact ⟨l, (List.append_nil _).symm, .nil outer l⟩
  | alternative :: rest =>
    rw [Expr.Readable] at hrest
    rw [Expr.restPieces] at hts
    obtain ⟨t, us, rfl, ht, hus⟩ := List.map_eq_cons_iff.1 hts
    obtain ⟨ts, us, rfl, hts, hus⟩ := List.map_eq_append_iff.1 hus
    have hread := (TakesTo.bar (t.kind_of_piece_mark ht) outer l).append
      (takesTo_sequence alternative hrest.1 hts outer _)
    obtain ⟨l', hl', hread'⟩ := takesTo_rest rest hrest.2 hus outer _
    refine ⟨l', ?_, hread.append hread'⟩
    rw [hl', Expr.withoutSpans, Level.extend, Level.bar, Level.alternatives, List.nil_append,
      List.append_assoc]
    rfl

/-- An expression, read at an empty level. -/
theorem takesTo_expr (e : List (List Atom)) (hne : e ≠ []) (he : Expr.Readable e)
    {ts : List Token} (hts : ts.map Token.piece = Expr.pieces e) (outer : List (Token × Level)) :
    ∃ l', Level.alternatives l' = Expr.withoutSpans e ∧ TakesTo outer .empty ts l' := by
  match e with
  | [] => exact absurd rfl hne
  | alternative :: rest =>
    rw [Expr.Readable] at he
    rw [Expr.pieces] at hts
    obtain ⟨ts, us, rfl, hts, hus⟩ := List.map_eq_append_iff.1 hts
    obtain ⟨l', hl', hread⟩ := takesTo_rest rest he.2 hus outer _
    refine ⟨l', ?_, (takesTo_sequence alternative he.1 hts outer .empty).append hread⟩
    rw [hl', Expr.withoutSpans]
    rfl

end

/-! ## 4. Rules and directives -/

/-- A rule is read back, behind whatever was declared before. -/
theorem read_rule {r : Rule} (hne : r.body ≠ []) (hr : Expr.Readable r.body) {ts : List Token}
    (hts : ts.map Token.piece = r.pieces) (d : Declaration) :
    ∃ r' : Rule, ts.foldlM step ⟨d, .between⟩ =
        .ok ⟨⟨d.tokens, d.rules ++ [r'], d.start⟩, .between⟩ ∧
      r'.withoutSpans = r.withoutSpans := by
  obtain ⟨name, us, rfl, hname, hus⟩ := List.map_eq_cons_iff.1 hts
  obtain ⟨colon, us, rfl, hcolon, hus⟩ := List.map_eq_cons_iff.1 hus
  obtain ⟨body, us, rfl, hbody, hus⟩ := List.map_eq_append_iff.1 hus
  obtain ⟨semicolon, rfl, hsemicolon⟩ := List.map_eq_singleton_iff.1 hus
  obtain ⟨hname, hlexeme⟩ := name.kind_of_piece_name hname
  obtain ⟨l', hl', hread⟩ := takesTo_expr r.body hne hr hbody []
  obtain ⟨last, level, pending, hread, hlevel⟩ := hread d name colon .empty none rfl
  refine ⟨⟨name.name, (level.settle pending).alternatives,
    some ⟨name.start.offset, last.stop, name.start.line, name.start.column⟩⟩, ?_, ?_⟩
  · rw [foldlM_step_cons (Moves.lhs hname).step_eq,
      foldlM_step_cons (Moves.colon (colon.kind_of_piece_mark hcolon)).step_eq,
      foldlM_step_append hread]
    exact foldlM_step_cons (Moves.closeRule (semicolon.kind_of_piece_mark hsemicolon)).step_eq []
  · rw [Rule.withoutSpans, Rule.withoutSpans, hlexeme, ← hl', ← hlevel,
      Level.alternatives_withoutSpans]

/-- Rules are read back one by one. -/
theorem read_rules {rules : List Rule} (h : ∀ r ∈ rules, r.body ≠ [] ∧ Expr.Readable r.body)
    {ts : List Token} (hts : ts.map Token.piece = rules.flatMap Rule.pieces) (d : Declaration) :
    ∃ rules' : List Rule, ts.foldlM step ⟨d, .between⟩ =
        .ok ⟨⟨d.tokens, d.rules ++ rules', d.start⟩, .between⟩ ∧
      rules'.map Rule.withoutSpans = rules.map Rule.withoutSpans := by
  induction rules generalizing ts d with
  | nil =>
    obtain rfl := List.map_eq_nil_iff.1 hts
    exact ⟨[], by rw [List.append_nil]; rfl, rfl⟩
  | cons r rules ih =>
    rw [List.forall_mem_cons] at h
    obtain ⟨ts, us, rfl, hts, hus⟩ := List.map_eq_append_iff.1 hts
    obtain ⟨r', hread, hr'⟩ := read_rule h.1.1 h.1.2 hts d
    obtain ⟨rules', hread', hrules'⟩ := ih h.2 hus ⟨d.tokens, d.rules ++ [r'], d.start⟩
    refine ⟨r' :: rules', ?_, by rw [List.map_cons, List.map_cons, hr', hrules']⟩
    rw [foldlM_step_append hread, hread', List.append_assoc]
    rfl

end Reading

/-- The terminals that a directive declares. -/
def declaredTokens : List Token → List Name
  | _ :: keyword :: rest =>
    if keyword.lexeme = "token" then rest.dropLast.map (·.name) else []
  | _ => []

/-- The start symbol that a directive declares, if it does. -/
def declaredStart? : List Token → Option Name
  | [_, keyword, name, _] => if keyword.lexeme = "start" then some name.name else none
  | _ => none

theorem IsTokenDirective.declaredStart?_eq {ts : List Token} (h : IsTokenDirective ts) :
    declaredStart? ts = none := by
  obtain ⟨percent, keyword, names, semicolon, rfl, -, -, hword, -⟩ := h
  unfold declaredStart?
  split
  · rename_i heq
    obtain ⟨-, rfl, -⟩ : _ ∧ keyword = _ ∧ _ := by simpa using heq
    rw [if_neg (by simp [hword])]
  · rfl

theorem IsStartDirective.declaredTokens_eq {ts : List Token} (h : IsStartDirective ts) :
    declaredTokens ts = [] := by
  obtain ⟨percent, keyword, name, semicolon, rfl, -, -, hword, -⟩ := h
  rw [declaredTokens, if_neg (by simp [hword])]

namespace Reading

variable [Platform] {d : Declaration} {ts : List Token}

theorem read_tokens {names : List Token} (h : ∀ n ∈ names, n.kind = .identifier)
    (d : Declaration) (last : Option Token) :
    names.foldlM step ⟨d, .tokens last⟩ =
      .ok ⟨⟨d.tokens ++ names.map (·.name), d.rules, d.start⟩,
        .tokens (names.getLast?.or last)⟩ := by
  induction names generalizing d last with
  | nil =>
    rw [List.map_nil, List.append_nil]
    rfl
  | cons n names ih =>
    rw [List.forall_mem_cons] at h
    rw [foldlM_step_cons (Moves.terminal h.1).step_eq, ih h.2, List.append_assoc, List.map_cons,
      List.singleton_append, List.getLast?_cons]
    cases names.getLast? <;> rfl

theorem read_tokenDirective (h : IsTokenDirective ts) (hd : d.rules = []) :
    ts.foldlM step ⟨d, .between⟩ =
      .ok ⟨⟨d.tokens ++ declaredTokens ts, d.rules, d.start⟩, .between⟩ := by
  obtain ⟨percent, keyword, names, semicolon, rfl, hpercent, hkeyword, hword, hne, hnames,
    hsemicolon⟩ := h
  have hlast := List.getLast?_eq_some_getLast hne
  generalize names.getLast hne = last at hlast
  rw [foldlM_step_cons (Moves.percent hpercent hd).step_eq,
    foldlM_step_cons (Moves.tokenDirective hkeyword hword).step_eq,
    foldlM_step_append (read_tokens hnames d none), hlast, Option.some_or,
    foldlM_step_cons (Moves.closeTokens hsemicolon).step_eq, declaredTokens, if_pos hword,
    List.dropLast_concat]
  rfl

theorem read_startDirective (h : IsStartDirective ts) (hd : d.rules = []) :
    ts.foldlM step ⟨d, .between⟩ =
      .ok ⟨⟨d.tokens, d.rules, (declaredStart? ts).or d.start⟩, .between⟩ := by
  obtain ⟨percent, keyword, name, semicolon, rfl, hpercent, hkeyword, hword, hname,
    hsemicolon⟩ := h
  rw [foldlM_step_cons (Moves.percent hpercent hd).step_eq,
    foldlM_step_cons (Moves.startDirective hkeyword hword).step_eq,
    foldlM_step_cons (Moves.startSymbol hname).step_eq,
    foldlM_step_cons (Moves.closeStart hsemicolon).step_eq, declaredStart?, if_pos hword]
  rfl

/-- Directives are followed one by one; the last start symbol counts. -/
theorem read_directives {directives : List (List Token)}
    (h : ∀ ts ∈ directives, IsTokenDirective ts ∨ IsStartDirective ts) (hd : d.rules = []) :
    directives.flatten.foldlM step ⟨d, .between⟩ =
      .ok ⟨⟨d.tokens ++ directives.flatMap declaredTokens, d.rules,
        (directives.filterMap declaredStart?).getLast?.or d.start⟩, .between⟩ := by
  induction directives generalizing d with
  | nil =>
    rw [List.flatMap_nil, List.append_nil]
    rfl
  | cons ts directives ih =>
    rw [List.forall_mem_cons] at h
    have hts : ts.foldlM step ⟨d, .between⟩ =
        .ok ⟨⟨d.tokens ++ declaredTokens ts, d.rules, (declaredStart? ts).or d.start⟩,
          .between⟩ := by
      rcases h.1 with ht | hs
      · rw [read_tokenDirective ht hd, ht.declaredStart?_eq, Option.none_or]
      · rw [read_startDirective hs hd, hs.declaredTokens_eq, List.append_nil]
    have hstart : ((ts :: directives).filterMap declaredStart?).getLast?.or d.start =
        (directives.filterMap declaredStart?).getLast?.or ((declaredStart? ts).or d.start) := by
      rw [List.filterMap_cons]
      cases declaredStart? ts with
      | none => rfl
      | some s =>
        rw [List.getLast?_cons]
        cases (directives.filterMap declaredStart?).getLast? <;> rfl
    rw [List.flatten_cons, foldlM_step_append hts, hstart, List.flatMap_cons, ← List.append_assoc]
    exact ih h.2 hd

/-- Reading is taking the tokens, and then the end of the text. -/
theorem read_eq (r : Reading) (close : Token) (ts : List Token) :
    r.read close ts = (ts.foldlM step r).bind (·.finish close) := by
  induction ts generalizing r with
  | nil => rfl
  | cons t ts ih =>
    rw [read, List.foldlM_cons]
    cases r.step t with
    | error e => rfl
    | ok r' => exact ih r'

/-- If a text is read, then the tokens are taken, and so is the end of the text. -/
theorem exists_foldlM_of_read {r : Reading} {close : Token} (h : r.read close ts = .ok d) :
    ∃ r', ts.foldlM step r = .ok r' ∧ r'.finish close = .ok d := by
  rw [read_eq] at h
  cases hs : ts.foldlM step r with
  | error e =>
    rw [hs] at h
    cases h
  | ok r' =>
    rw [hs] at h
    exact ⟨r', rfl, h⟩

/-- Where no clause is left open, the text may end. -/
theorem read_of_foldlM {r : Reading} (h : ts.foldlM step r = .ok ⟨d, .between⟩) (close : Token) :
    r.read close ts = .ok ⟨d.tokens, d.rules, d.start.or d.ruleNames.head?⟩ := by
  rw [read_eq, h]
  rfl

end Reading

end Lookahead
