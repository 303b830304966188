import Lookahead.Proofs.Readback

/-!
# Which texts are read

The reader goes through a text token by token and never looks back.  The grammar of grammar texts,
on the other hand, says what a text is as a whole.  Both agree on what is accepted.

## 1. Phrases are written expressions

If a list of tokens is a phrase and its literals have values, then it says just what some expression
is written as (`IsPhrase.writes`).  So it is read back, and the reader accepts every grammar text.

## 2. Phrases with open parentheses

In the middle of a rule, the tokens are an expression in which some parentheses are still open
(`OpenPhrase`).  A suffix can follow only if the last of them are a base (`TakesSuffix`).

## 3. What has been read

At every moment the tokens that the reader has taken are directives, rules, and the beginning of a
clause, and the stage says of which clause (`Reading.HasRead`).  Each step preserves this
(`Reading.HasRead.step`), and where the text may end no clause is begun; so the reader accepts
nothing but grammar texts.

## 4. Refusals

A step that fails reports the token that it was given (`Reading.refusal_of_step`).  So a text is
refused at one of its tokens, its end included, and those in front of it are read
(`Reading.exists_refusal_of_read`).
-/

namespace Lookahead

open Text (literal)

/-- A literal denotes a text. -/
def Token.HasValue [Platform] (t : Token) : Prop :=
  t.kind = .doubleQuoted ∨ t.kind = .singleQuoted → ∃ text, literal t.lexeme.toList = .ok text

/-! ## 1. Phrases are written expressions -/

namespace Token

variable [Platform] {t : Token}

theorem piece_of_identifier (h : t.kind = .identifier) : t.piece = .name t.name := by
  simp only [piece, h]

theorem HasValue.exists_piece (h : t.HasValue)
    (hk : t.kind = .doubleQuoted ∨ t.kind = .singleQuoted) : ∃ s, t.piece = .literal s := by
  obtain ⟨s, hs⟩ := h hk
  refine ⟨s, ?_⟩
  rcases hk with hk | hk <;> simp only [piece, hk, hs]

end Token

namespace PhraseClass

/-- Whether the pieces are those of some part of an expression.  A base becomes an atom with any
suffix. -/
def Writes : PhraseClass → List Piece → Prop
  | expression, ps => ∃ e, e ≠ [] ∧ Expr.Readable e ∧ Expr.pieces e = ps
  | sequence, ps => ∃ as, Expr.SequenceReadable as ∧ Expr.sequencePieces as = ps
  | atom, ps => ∃ a, Expr.AtomReadable a ∧ Expr.atomPieces a = ps
  | base, ps => ∃ a : Atom, ∀ suffix, (∀ word, suffix ≠ .other word) →
      Expr.AtomReadable (a.withSuffix suffix) ∧
        Expr.atomPieces (a.withSuffix suffix) = ps ++ suffix.pieces

end PhraseClass

theorem exists_suffix_of_mem {k : TokenKind} (h : k ∈ [TokenKind.question, .star, .plus]) :
    ∃ suffix : Suffix, (∀ word, suffix ≠ .other word) ∧ suffix.pieces = [.mark k] := by
  simp only [List.mem_cons, List.not_mem_nil, or_false] at h
  rcases h with rfl | rfl | rfl
  · exact ⟨.optional, by simp, rfl⟩
  · exact ⟨.star, by simp, rfl⟩
  · exact ⟨.plus, by simp, rfl⟩

namespace Token

variable [Platform] {t : Token}

/-- A token that says a leaf is a base. -/
theorem writes_leaf {l : Leaf} (hl : l ≠ .unknown) (hp : l.pieces = [t.piece]) :
    PhraseClass.base.Writes ([t].map piece) := by
  refine ⟨.leaf l .once none, fun suffix hs => ⟨⟨hl, hs⟩, ?_⟩⟩
  rw [Atom.withSuffix, Expr.atomPieces, hp]
  rfl

theorem HasValue.writes (h : t.HasValue) (hk : t.kind = .doubleQuoted ∨ t.kind = .singleQuoted) :
    PhraseClass.base.Writes ([t].map piece) := by
  obtain ⟨s, hs⟩ := h.exists_piece hk
  exact writes_leaf (l := .literal s) (by simp) (by rw [hs]; rfl)

end Token

/-- A phrase is what some part of an expression is written as. -/
theorem IsPhrase.writes [Platform] {c : PhraseClass} {ks : List TokenKind} (h : IsPhrase c ks)
    {ts : List Token} (hts : ts.map (·.kind) = ks) (hvalues : ∀ t ∈ ts, t.HasValue) :
    c.Writes (ts.map Token.piece) := by
  induction h generalizing ts with
  | name =>
    obtain ⟨t, rfl, hk⟩ := List.map_eq_singleton_iff.1 hts
    exact Token.writes_leaf (l := .name t.name) (by simp)
      (by rw [Token.piece_of_identifier hk]; rfl)
  | doubleQuoted =>
    obtain ⟨t, rfl, hk⟩ := List.map_eq_singleton_iff.1 hts
    exact (hvalues t (by simp)).writes (Or.inl hk)
  | singleQuoted =>
    obtain ⟨t, rfl, hk⟩ := List.map_eq_singleton_iff.1 hts
    exact (hvalues t (by simp)).writes (Or.inr hk)
  | group _ ih =>
    obtain ⟨t, us, rfl, ht, hus⟩ := List.map_eq_cons_iff.1 hts
    obtain ⟨inner, us, rfl, hinner, hus⟩ := List.map_eq_append_iff.1 hus
    obtain ⟨t', rfl, ht'⟩ := List.map_eq_singleton_iff.1 hus
    obtain ⟨e, hne, he, hp⟩ := ih hinner fun u hu => hvalues u (by simp [hu])
    refine ⟨.group e .once none, fun suffix hs => ⟨⟨hne, he, hs⟩, ?_⟩⟩
    have hpiece : t.piece = .mark .leftParen := by simp only [Token.piece, ht]
    have hpiece' : t'.piece = .mark .rightParen := by simp only [Token.piece, ht']
    rw [Atom.withSuffix, Expr.atomPieces, hp, List.map_cons, List.map_append, hpiece,
      List.map_singleton, hpiece', List.cons_append, List.append_assoc]
    rfl
  | once _ ih =>
    obtain ⟨a, ha⟩ := ih hts hvalues
    obtain ⟨hread, hp⟩ := ha .once (by simp)
    exact ⟨_, hread, hp.trans (List.append_nil _)⟩
  | suffixed _ hk ih =>
    obtain ⟨us, vs, rfl, hus, hvs⟩ := List.map_eq_append_iff.1 hts
    obtain ⟨t, rfl, ht⟩ := List.map_eq_singleton_iff.1 hvs
    obtain ⟨a, ha⟩ := ih hus fun u hu => hvalues u (by simp [hu])
    obtain ⟨suffix, hs, hp⟩ := exists_suffix_of_mem hk
    obtain ⟨hread, hp'⟩ := ha suffix hs
    have hpiece : t.piece = .mark t.kind := by
      simp only [List.mem_cons, List.not_mem_nil, or_false] at hk
      rcases hk with rfl | rfl | rfl <;> simp only [Token.piece, ht]
    refine ⟨_, hread, ?_⟩
    rw [hp', hp, List.map_append, List.map_singleton, hpiece, ht]
  | empty =>
    obtain rfl := List.map_eq_nil_iff.1 hts
    exact ⟨[], trivial, rfl⟩
  | cons _ _ ih ih' =>
    obtain ⟨us, vs, rfl, hus, hvs⟩ := List.map_eq_append_iff.1 hts
    obtain ⟨a, ha, hp⟩ := ih hus fun u hu => hvalues u (by simp [hu])
    obtain ⟨as, has, hp'⟩ := ih' hvs fun u hu => hvalues u (by simp [hu])
    refine ⟨a :: as, ⟨ha, has⟩, ?_⟩
    rw [Expr.sequencePieces, hp, hp', List.map_append]
  | last _ ih =>
    obtain ⟨as, has, hp⟩ := ih hts hvalues
    refine ⟨[as], by simp, ⟨has, trivial⟩, ?_⟩
    rw [Expr.pieces, hp, Expr.restPieces, List.append_nil]
  | bar _ _ ih ih' =>
    obtain ⟨us, vs, rfl, hus, hvs⟩ := List.map_eq_append_iff.1 hts
    obtain ⟨t, vs, rfl, ht, hvs⟩ := List.map_eq_cons_iff.1 hvs
    obtain ⟨as, has, hp⟩ := ih hus fun u hu => hvalues u (by simp [hu])
    obtain ⟨e, hne, he, hp'⟩ := ih' hvs fun u hu => hvalues u (by simp [hu])
    obtain ⟨alternative, rest, rfl⟩ := List.exists_cons_of_ne_nil hne
    have hpiece : t.piece = .mark .bar := by simp only [Token.piece, ht]
    refine ⟨as :: alternative :: rest, by simp, ⟨has, he⟩, ?_⟩
    rw [Expr.pieces, hp, List.map_append, List.map_cons, hpiece, ← hp']
    rfl

namespace Expr

mutual

theorem atomPieces_withoutSpans (a : Atom) : atomPieces (atomWithoutSpans a) = atomPieces a := by
  match a with
  | .leaf l suffix _ => rfl
  | .group alternatives suffix _ =>
    rw [atomWithoutSpans, atomPieces, atomPieces, pieces_withoutSpans alternatives]

theorem sequencePieces_withoutSpans (as : List Atom) :
    sequencePieces (sequenceWithoutSpans as) = sequencePieces as := by
  match as with
  | [] => rfl
  | a :: as =>
    rw [sequenceWithoutSpans, sequencePieces, sequencePieces, atomPieces_withoutSpans a,
      sequencePieces_withoutSpans as]

theorem restPieces_withoutSpans (e : List (List Atom)) :
    restPieces (withoutSpans e) = restPieces e := by
  match e with
  | [] => rfl
  | alternative :: rest =>
    rw [withoutSpans, restPieces, restPieces, sequencePieces_withoutSpans alternative,
      restPieces_withoutSpans rest]

/-- An expression is written in the same way without its places. -/
theorem pieces_withoutSpans (e : List (List Atom)) : pieces (withoutSpans e) = pieces e := by
  match e with
  | [] => rfl
  | alternative :: rest =>
    rw [withoutSpans, pieces, pieces, sequencePieces_withoutSpans alternative,
      restPieces_withoutSpans rest]

end

end Expr

theorem Rule.pieces_withoutSpans (r : Rule) : r.withoutSpans.pieces = r.pieces := by
  rw [pieces, pieces, withoutSpans, Expr.pieces_withoutSpans]

namespace Reading

section Phrases

variable [Platform]

/-- The tokens of a rule are read, and the rule says what they say. -/
theorem read_isRule {ts : List Token} (h : IsRule ts) (hvalues : ∀ t ∈ ts, t.HasValue)
    (d : Declaration) :
    ∃ r : Rule, ts.foldlM step ⟨d, .between⟩ =
        .ok ⟨⟨d.tokens, d.rules ++ [r], d.start⟩, .between⟩ ∧
      r.pieces = ts.map Token.piece := by
  obtain ⟨name, colon, body, semicolon, rfl, hname, hcolon, hbody, hsemicolon⟩ := h
  obtain ⟨e, hne, he, hp⟩ := hbody.writes rfl fun t ht => hvalues t (by simp [ht])
  have hpieces : (name :: colon :: (body ++ [semicolon])).map Token.piece =
      Rule.pieces ⟨name.name, e, none⟩ := by
    have hcolon' : colon.piece = .mark .colon := by simp only [Token.piece, hcolon]
    have hsemicolon' : semicolon.piece = .mark .semicolon := by
      simp only [Token.piece, hsemicolon]
    rw [Rule.pieces, hp, List.map_cons, List.map_cons, List.map_append, List.map_singleton,
      Token.piece_of_identifier hname, hcolon', hsemicolon']
  obtain ⟨r, hread, hr⟩ := read_rule hne he hpieces d
  exact ⟨r, hread, by rw [hpieces, ← r.pieces_withoutSpans, hr, Rule.pieces_withoutSpans]⟩

/-- Rules are read one by one. -/
theorem read_areRules {rules : List (List Token)} (h : ∀ ts ∈ rules, IsRule ts)
    (hvalues : ∀ t ∈ rules.flatten, t.HasValue) (d : Declaration) :
    ∃ rs : List Rule, rules.flatten.foldlM step ⟨d, .between⟩ =
        .ok ⟨⟨d.tokens, d.rules ++ rs, d.start⟩, .between⟩ ∧
      rs.map Rule.pieces = rules.map (·.map Token.piece) := by
  induction rules generalizing d with
  | nil => exact ⟨[], by rw [List.append_nil]; rfl, rfl⟩
  | cons ts rules ih =>
    rw [List.forall_mem_cons] at h
    rw [List.flatten_cons, List.forall_mem_append] at hvalues
    obtain ⟨r, hread, hr⟩ := read_isRule h.1 hvalues.1 d
    obtain ⟨rs, hread', hrs⟩ := ih h.2 hvalues.2 ⟨d.tokens, d.rules ++ [r], d.start⟩
    refine ⟨r :: rs, ?_, by rw [List.map_cons, List.map_cons, hr, hrs]⟩
    rw [List.flatten_cons, foldlM_step_append hread, hread', List.append_assoc]
    rfl

/-- The reader accepts directives and rules, and finds what they declare. -/
theorem read_isGrammarText {directives rules : List (List Token)}
    (hd : ∀ ts ∈ directives, IsTokenDirective ts ∨ IsStartDirective ts)
    (hr : ∀ ts ∈ rules, IsRule ts) (hvalues : ∀ t ∈ rules.flatten, t.HasValue) (close : Token) :
    ∃ d : Declaration,
      initial.read close (directives.flatten ++ rules.flatten) = .ok d ∧
      d.tokens = directives.flatMap declaredTokens ∧
      d.start = (directives.filterMap declaredStart?).getLast?.or d.ruleNames.head? ∧
      d.rules.map Rule.pieces = rules.map (·.map Token.piece) := by
  have hread := read_directives (d := ⟨[], [], none⟩) hd rfl
  obtain ⟨rs, hread', hrs⟩ := read_areRules hr hvalues
    ⟨directives.flatMap declaredTokens, [], (directives.filterMap declaredStart?).getLast?⟩
  rw [List.nil_append, Option.or_none] at hread
  exact ⟨_, read_of_foldlM ((foldlM_step_append hread _).trans hread') close, rfl, rfl, hrs⟩

end Phrases

end Reading

/-! ## 2. Phrases with open parentheses -/

namespace IsPhrase

variable {ks ls : List TokenKind}

/-- A sequence goes on with the last alternative of an expression. -/
theorem expression_append (h : IsPhrase .expression ks) (h' : IsPhrase .sequence ls) :
    IsPhrase .expression (ks ++ ls) := by
  generalize hc : PhraseClass.expression = c at h
  induction h with
  | last h => exact .last (h.append h')
  | bar h _ _ ih =>
    rw [List.append_assoc, List.cons_append]
    exact .bar h (ih hc)
  | _ => cases hc

/-- A bar begins one more alternative. -/
theorem expression_bar (h : IsPhrase .expression ks) : IsPhrase .expression (ks ++ [.bar]) := by
  generalize hc : PhraseClass.expression = c at h
  induction h with
  | last h => exact .bar h (.last .empty)
  | bar h _ _ ih =>
    rw [List.append_assoc, List.cons_append]
    exact .bar h (ih hc)
  | _ => cases hc

end IsPhrase

/-- An expression in which some parentheses are still open. -/
inductive OpenPhrase : Nat → List TokenKind → Prop
  | nil {ks : List TokenKind} (h : IsPhrase .expression ks) : OpenPhrase 0 ks
  | cons {n : Nat} {ks ls : List TokenKind} (h : OpenPhrase n ks)
      (h' : IsPhrase .expression ls) : OpenPhrase (n + 1) (ks ++ .leftParen :: ls)

/-- The same, and the last of it is a base, so that a suffix can follow. -/
def TakesSuffix (n : Nat) (ks : List TokenKind) : Prop :=
  ∃ before base, ks = before ++ base ∧ OpenPhrase n before ∧ IsPhrase .base base

namespace OpenPhrase

variable {n : Nat} {ks ls : List TokenKind}

theorem append (h : OpenPhrase n ks) (h' : IsPhrase .sequence ls) : OpenPhrase n (ks ++ ls) := by
  cases h with
  | nil h => exact .nil (h.expression_append h')
  | cons h hin =>
    rw [List.append_assoc, List.cons_append]
    exact .cons h (hin.expression_append h')

theorem bar (h : OpenPhrase n ks) : OpenPhrase n (ks ++ [.bar]) := by
  cases h with
  | nil h => exact .nil h.expression_bar
  | cons h hin =>
    rw [List.append_assoc, List.cons_append]
    exact .cons h hin.expression_bar

theorem opening (h : OpenPhrase n ks) : OpenPhrase (n + 1) (ks ++ [.leftParen]) :=
  .cons h (.last .empty)

/-- A parenthesis that is closed ends a base. -/
theorem closing (h : OpenPhrase (n + 1) ks) : TakesSuffix n (ks ++ [.rightParen]) := by
  cases h with
  | @cons _ before ls h hin =>
    refine ⟨before, .leftParen :: (ls ++ [.rightParen]), ?_, h, .group hin⟩
    rw [List.append_assoc, List.cons_append]

theorem takesSuffix (h : OpenPhrase n ks) (h' : IsPhrase .base ls) : TakesSuffix n (ks ++ ls) :=
  ⟨ks, ls, rfl, h, h'⟩

end OpenPhrase

namespace TakesSuffix

variable {n : Nat} {ks : List TokenKind}

theorem openPhrase (h : TakesSuffix n ks) : OpenPhrase n ks := by
  obtain ⟨before, base, rfl, ho, hb⟩ := h
  exact ho.append (.sequence_of_atom (.once hb))

theorem suffixed (h : TakesSuffix n ks) {k : TokenKind}
    (hk : k ∈ [TokenKind.question, .star, .plus]) : OpenPhrase n (ks ++ [k]) := by
  obtain ⟨before, base, rfl, ho, hb⟩ := h
  rw [List.append_assoc]
  exact ho.append (.sequence_of_atom (.suffixed hb hk))

end TakesSuffix

/-! ## 3. What has been read -/

/-- Whether the tokens are the beginning of the clause that the stage is in the middle of. -/
def Stage.HasRead : Stage → List Token → Prop
  | between, ts => ts = []
  | directive, ts => ∃ percent, ts = [percent] ∧ percent.kind = .percent
  | tokens last, ts => ∃ percent keyword names, ts = percent :: keyword :: names ∧
      percent.kind = .percent ∧ keyword.kind = .identifier ∧ keyword.lexeme = "token" ∧
      (∀ n ∈ names, n.kind = .identifier) ∧ (last.isSome → names ≠ [])
  | start last, ts => ∃ percent keyword, ts = percent :: keyword :: last.toList ∧
      percent.kind = .percent ∧ keyword.kind = .identifier ∧ keyword.lexeme = "start" ∧
      ∀ n ∈ last, n.kind = .identifier
  | head name, ts => ts = [name] ∧ name.kind = .identifier
  | body _ _ outer _ pending, ts => ∃ name colon body, ts = name :: colon :: body ∧
      name.kind = .identifier ∧ colon.kind = .colon ∧
      OpenPhrase outer.length (body.map (·.kind)) ∧
      (pending.isSome → TakesSuffix outer.length (body.map (·.kind)))

/-- Whether the stage is inside a directive. -/
def Stage.InDirective : Stage → Prop
  | directive | tokens _ | start _ => True
  | _ => False

/-- The tokens are directives, the rules that have been read, and the beginning of a clause.  Inside
a directive, there are no rules yet. -/
def Reading.HasRead (r : Reading) (ts : List Token) : Prop :=
  ∃ directives rules : List (List Token), ∃ clause,
    ts = directives.flatten ++ rules.flatten ++ clause ∧
    (∀ d ∈ directives, IsTokenDirective d ∨ IsStartDirective d) ∧ (∀ c ∈ rules, IsRule c) ∧
    (r.declared.rules = [] → rules = []) ∧ (r.stage.InDirective → rules = []) ∧
    r.stage.HasRead clause

/-- A token inside the body of a rule. -/
theorem Stage.HasRead.body {name last last' t : Token} {outer outer' : List (Token × Level)}
    {level level' : Level} {pending pending' : Option Atom} {clause : List Token}
    (h : (Stage.body name last outer level pending).HasRead clause)
    (hopen : ∀ ks, OpenPhrase outer.length ks →
      (pending.isSome → TakesSuffix outer.length ks) →
        OpenPhrase outer'.length (ks ++ [t.kind]) ∧
          (pending'.isSome → TakesSuffix outer'.length (ks ++ [t.kind]))) :
    (Stage.body name last' outer' level' pending').HasRead (clause ++ [t]) := by
  obtain ⟨first, colon, body, rfl, hfirst, hcolon, hbody, hsuffix⟩ := h
  refine ⟨first, colon, body ++ [t], rfl, hfirst, hcolon, ?_⟩
  rw [List.map_append, List.map_singleton]
  exact hopen _ hbody hsuffix

namespace Reading

theorem hasRead_initial : initial.HasRead [] :=
  ⟨[], [], [], rfl, by simp, by simp, fun _ => rfl, fun _ => rfl, rfl⟩

section Steps

variable {r : Reading} {ts : List Token} {t : Token} {d : Declaration}

/-- The token belongs to the clause that has been begun. -/
theorem HasRead.within (h : r.HasRead ts) {stage : Stage} (hrules : d.rules = r.declared.rules)
    (hstage : ∀ clause, r.stage.HasRead clause → stage.HasRead (clause ++ [t]))
    (hin : stage.InDirective → r.stage.InDirective ∨ r.declared.rules = []) :
    Reading.HasRead ⟨d, stage⟩ (ts ++ [t]) := by
  obtain ⟨directives, rules, clause, rfl, hd, hr, hempty, hdirective, hclause⟩ := h
  refine ⟨directives, rules, clause ++ [t], List.append_assoc _ _ _, hd, hr, ?_, fun hs => ?_,
    hstage clause hclause⟩
  · exact fun h => hempty (hrules ▸ h)
  · exact (hin hs).elim hdirective hempty

/-- The token closes a directive. -/
theorem HasRead.closeDirective (h : r.HasRead ts) (hin : r.stage.InDirective)
    (hstage : ∀ clause, r.stage.HasRead clause →
      IsTokenDirective (clause ++ [t]) ∨ IsStartDirective (clause ++ [t])) :
    Reading.HasRead ⟨r.declared, .between⟩ (ts ++ [t]) := by
  obtain ⟨directives, rules, clause, rfl, hd, hr, hempty, hdirective, hclause⟩ := h
  obtain rfl := hdirective hin
  refine ⟨directives ++ [clause ++ [t]], [], [], by simp, fun c hc => ?_, hr, hempty, fun _ => rfl,
    rfl⟩
  rcases List.mem_append.1 hc with hc | hc
  · exact hd c hc
  · rw [List.mem_singleton.1 hc]
    exact hstage clause hclause

/-- The token closes a rule. -/
theorem HasRead.closeRule (h : r.HasRead ts) {rule : Rule}
    (hstage : ∀ clause, r.stage.HasRead clause → IsRule (clause ++ [t])) :
    Reading.HasRead ⟨⟨d.tokens, d.rules ++ [rule], d.start⟩, .between⟩ (ts ++ [t]) := by
  obtain ⟨directives, rules, clause, rfl, hd, hr, hempty, hdirective, hclause⟩ := h
  refine ⟨directives, rules ++ [clause ++ [t]], [], by simp, hd, fun c hc => ?_, by simp,
    fun hs => hs.elim, rfl⟩
  rcases List.mem_append.1 hc with hc | hc
  · exact hr c hc
  · rw [List.mem_singleton.1 hc]
    exact hstage clause hclause

/-- The token belongs to the body of the rule. -/
theorem HasRead.inBody {name last last' : Token} {outer outer' : List (Token × Level)}
    {level level' : Level} {pending pending' : Option Atom}
    (h : Reading.HasRead ⟨d, .body name last outer level pending⟩ ts)
    (hopen : ∀ ks, OpenPhrase outer.length ks →
      (pending.isSome → TakesSuffix outer.length ks) →
        OpenPhrase outer'.length (ks ++ [t.kind]) ∧
          (pending'.isSome → TakesSuffix outer'.length (ks ++ [t.kind]))) :
    Reading.HasRead ⟨d, .body name last' outer' level' pending'⟩ (ts ++ [t]) :=
  h.within rfl (fun _ hc => hc.body hopen) fun hin => hin.elim

/-- The token is a base by itself, and waits for a suffix. -/
theorem HasRead.base {name last : Token} {outer : List (Token × Level)} {level level' : Level}
    {pending : Option Atom} (h : Reading.HasRead ⟨d, .body name last outer level pending⟩ ts)
    (hbase : IsPhrase .base [t.kind]) (a : Atom) :
    Reading.HasRead ⟨d, .body name t outer level' (some a)⟩ (ts ++ [t]) :=
  h.inBody fun _ ho _ => ⟨(ho.takesSuffix hbase).openPhrase, fun _ => ho.takesSuffix hbase⟩

variable [Platform]

/-- **One step.**  What has been read stays the beginning of a grammar text. -/
theorem HasRead.step {r' : Reading} (h : r.HasRead ts) (hs : r.step t = .ok r') :
    r'.HasRead (ts ++ [t]) := by
  cases moves_of_step hs with
  | percent hk hrules =>
    refine h.within rfl (fun clause hc => ?_) fun _ => Or.inr hrules
    obtain rfl : clause = [] := hc
    exact ⟨t, rfl, hk⟩
  | tokenDirective hk hword =>
    refine h.within rfl (fun clause hc => ?_) fun _ => Or.inl trivial
    obtain ⟨percent, rfl, hpercent⟩ := hc
    exact ⟨percent, t, [], rfl, hpercent, hk, hword, by simp, by simp⟩
  | startDirective hk hword =>
    refine h.within rfl (fun clause hc => ?_) fun _ => Or.inl trivial
    obtain ⟨percent, rfl, hpercent⟩ := hc
    exact ⟨percent, t, rfl, hpercent, hk, hword, by simp⟩
  | terminal hk =>
    refine h.within rfl (fun clause hc => ?_) fun _ => Or.inl trivial
    obtain ⟨percent, keyword, names, rfl, hpercent, hkeyword, hword, hnames, -⟩ := hc
    refine ⟨percent, keyword, names ++ [t], rfl, hpercent, hkeyword, hword, ?_, by simp⟩
    exact List.forall_mem_append.2 ⟨hnames, by simpa using hk⟩
  | closeTokens hk =>
    refine h.closeDirective trivial fun clause hc => Or.inl ?_
    obtain ⟨percent, keyword, names, rfl, hpercent, hkeyword, hword, hnames, hne⟩ := hc
    exact ⟨percent, keyword, names, t, rfl, hpercent, hkeyword, hword, hne rfl, hnames, hk⟩
  | startSymbol hk =>
    refine h.within rfl (fun clause hc => ?_) fun _ => Or.inl trivial
    obtain ⟨percent, keyword, rfl, hpercent, hkeyword, hword, -⟩ := hc
    exact ⟨percent, keyword, rfl, hpercent, hkeyword, hword, by simpa using hk⟩
  | @closeStart d last hk =>
    refine h.closeDirective trivial fun clause hc => Or.inr ?_
    obtain ⟨percent, keyword, rfl, hpercent, hkeyword, hword, hlast⟩ := hc
    exact ⟨percent, keyword, last, t, rfl, hpercent, hkeyword, hword, hlast last rfl, hk⟩
  | lhs hk =>
    refine h.within rfl (fun clause hc => ?_) fun hin => hin.elim
    obtain rfl : clause = [] := hc
    exact ⟨rfl, hk⟩
  | @colon d name hk =>
    refine h.within rfl (fun clause hc => ?_) fun hin => hin.elim
    obtain ⟨rfl, hname⟩ := hc
    exact ⟨name, t, [], rfl, hname, hk, .nil (.last .empty), by simp⟩
  | name hk => exact h.base (by rw [hk]; exact .name) _
  | literal hk hvalue =>
    refine h.base ?_ _
    rcases hk with hk | hk <;> rw [hk]
    · exact .doubleQuoted
    · exact .singleQuoted
  | leftParen hk =>
    refine h.inBody fun ks ho _ => ?_
    rw [hk]
    exact ⟨ho.opening, by simp⟩
  | rightParen hk =>
    refine h.inBody fun ks ho _ => ?_
    rw [hk]
    exact ⟨ho.closing.openPhrase, fun _ => ho.closing⟩
  | bar hk =>
    refine h.inBody fun ks ho _ => ?_
    rw [hk]
    exact ⟨ho.bar, by simp⟩
  | suffix hk =>
    refine h.inBody fun ks _ hw => ⟨(hw rfl).suffixed ?_, by simp⟩
    exact TokenKind.mem_of_suffix? hk
  | closeRule hk =>
    refine h.closeRule fun clause hc => ?_
    obtain ⟨first, colon, body, rfl, hfirst, hcolon, hbody, -⟩ := hc
    cases hbody with
    | nil hbody => exact ⟨first, colon, body, t, rfl, hfirst, hcolon, hbody, hk⟩

/-- **A whole run.** -/
theorem HasRead.foldlM {us : List Token} {r' : Reading} (h : r.HasRead ts)
    (hs : us.foldlM Reading.step r = .ok r') : r'.HasRead (ts ++ us) := by
  induction us generalizing r ts with
  | nil =>
    cases hs
    rwa [List.append_nil]
  | cons u us ih =>
    obtain ⟨r₁, hu, hs⟩ := exists_of_foldlM_cons hs
    rw [List.append_cons]
    exact ih (h.step hu) hs

/-- The reader accepts grammar texts only. -/
theorem isGrammarText_of_read {close : Token} (h : initial.read close ts = .ok d) :
    IsGrammarText ts := by
  obtain ⟨⟨declared, stage⟩, hs, hfinish⟩ := exists_foldlM_of_read h
  cases stage with
  | between =>
    obtain ⟨directives, rules, clause, hts, hd, hr, -, -, hclause⟩ := hasRead_initial.foldlM hs
    obtain rfl : clause = [] := hclause
    exact ⟨directives, rules, by rw [← List.nil_append ts, hts, List.append_nil], hd, hr⟩
  | _ => cases hfinish

end Steps

end Reading

/-! ## 4. Refusals -/

/-- The token that a fault reports. -/
def SourceError.found? : SourceError → Option Token
  | unexpectedChar .. => none
  | noDirective t => some t
  | unknownDirective t => some t
  | expected _ t => some t
  | missingSemicolon _ _ t => some t
  | literal _ t => some t

/-- There is a message for the fault, about the given token. -/
def SourceError.Reports (e : SourceError) (t : Token) : Prop :=
  e.found? = some t ∧ e.offset?.isSome

namespace Reading

variable {r : Reading} {t : Token} {e : SourceError}

theorem reports_refuse (r : Reading) (t : Token) : (r.refuse t).Reports t := by
  obtain ⟨d, stage⟩ := r
  cases stage with
  | tokens last => cases last <;> exact ⟨rfl, rfl⟩
  | start last => cases last <;> exact ⟨rfl, rfl⟩
  | body name last outer level pending => cases outer <;> exact ⟨rfl, rfl⟩
  | _ => exact ⟨rfl, rfl⟩

theorem eq_refuse_of_finish {close : Token} (h : r.finish close = .error e) :
    e = r.refuse close := by
  unfold finish at h
  split at h
  · cases h
  · exact (Except.error.inj h).symm

variable [Platform]

theorem refusal_of_stepBody {d : Declaration} {name last : Token} {outer : List (Token × Level)}
    {level : Level} {pending : Option Atom}
    (h : stepBody d name last outer level pending t = .error e) :
    e = refuse ⟨d, .body name last outer level pending⟩ t ∨
      ∃ fault, e = .literal fault t ∧ ¬ t.HasValue := by
  have hliteral : ∀ {fault}, (t.kind = .doubleQuoted ∨ t.kind = .singleQuoted) →
      literal t.lexeme.toList = .error fault → ¬ t.HasValue := by
    intro fault hk hfault hvalue
    obtain ⟨s, hs⟩ := hvalue hk
    cases hs.symm.trans hfault
  cases hk : t.kind <;> simp only [stepBody, hk, TokenKind.suffix?, reduceCtorEq] at h
  case percent | colon | endOfText => exact Or.inl (Except.error.inj h).symm
  case semicolon =>
    cases outer with
    | nil => cases h
    | cons o outer => exact Or.inl (Except.error.inj h).symm
  case rightParen =>
    cases outer with
    | nil => exact Or.inl (Except.error.inj h).symm
    | cons o outer => cases h
  case question | star | plus =>
    cases pending with
    | none => exact Or.inl (Except.error.inj h).symm
    | some a => cases h
  case doubleQuoted =>
    split at h
    · exact Or.inr ⟨_, (Except.error.inj h).symm, hliteral (Or.inl hk) ‹_›⟩
    · cases h
  case singleQuoted =>
    split at h
    · exact Or.inr ⟨_, (Except.error.inj h).symm, hliteral (Or.inr hk) ‹_›⟩
    · cases h

/-- **Failing steps.**  A token cannot stand where it stands, or it is no directive's name, or it is
a literal without a value. -/
theorem refusal_of_step (h : r.step t = .error e) :
    e = r.refuse t ∨ e = .unknownDirective t ∨ ∃ fault, e = .literal fault t ∧ ¬ t.HasValue := by
  unfold step at h
  split at h
  · split at h
    · cases h
    · exact Or.inl (Except.error.inj h).symm
  · cases h
  · unfold stepDirective at h
    split at h
    · cases h
    · split at h
      · cases h
      · exact Or.inr (Or.inl (Except.error.inj h).symm)
  · cases h
  · cases h
  · cases h
  · cases h
  · cases h
  · rename_i hstage
    obtain ⟨d, stage⟩ := r
    obtain rfl := hstage
    exact (refusal_of_stepBody h).imp_right Or.inr
  · exact Or.inl (Except.error.inj h).symm

/-- A token that is refused is reported, unless it is a literal without a value. -/
theorem reports_of_step (h : r.step t = .error e) (ht : t.HasValue) : e.Reports t := by
  rcases refusal_of_step h with rfl | rfl | ⟨fault, rfl, hvalue⟩
  · exact reports_refuse r t
  · exact ⟨rfl, rfl⟩
  · exact absurd ht hvalue

/-- With or without a message, a failing step is about its token. -/
theorem found_of_step (h : r.step t = .error e) : e.found? = some t := by
  rcases refusal_of_step h with rfl | rfl | ⟨fault, rfl, -⟩
  · exact (reports_refuse r t).1
  · rfl
  · rfl

/-- **Where a text is refused.**  One of the tokens is refused, and those in front of it are read, or
all tokens are read and the end of the text is refused. -/
theorem exists_refusal_of_read {close : Token} {ts : List Token}
    (h : r.read close ts = .error e) :
    (∃ before t after r', ts = before ++ t :: after ∧ before.foldlM step r = .ok r' ∧
        r'.step t = .error e) ∨
      ∃ r', ts.foldlM step r = .ok r' ∧ r'.finish close = .error e := by
  induction ts generalizing r with
  | nil => exact Or.inr ⟨r, rfl, h⟩
  | cons t ts ih =>
    rw [read] at h
    cases hs : r.step t with
    | error e' =>
      rw [hs] at h
      obtain rfl := Except.error.inj h
      exact Or.inl ⟨[], t, ts, r, rfl, rfl, hs⟩
    | ok r₁ =>
      rw [hs] at h
      rcases ih h with ⟨before, u, after, r', rfl, hbefore, hu⟩ | ⟨r', hts, hclose⟩
      · exact Or.inl ⟨t :: before, u, after, r', rfl, (foldlM_step_cons hs _).trans hbefore, hu⟩
      · exact Or.inr ⟨r', (foldlM_step_cons hs _).trans hts, hclose⟩

/-- A text is refused at one of its tokens, its end included. -/
theorem exists_reports_of_read {close : Token} {ts : List Token} (h : r.read close ts = .error e)
    (hvalues : ∀ t ∈ ts, t.HasValue) : ∃ t ∈ ts ++ [close], e.Reports t := by
  rcases exists_refusal_of_read h with ⟨before, t, after, r', rfl, -, hstep⟩ | ⟨r', -, hclose⟩
  · exact ⟨t, by simp, reports_of_step hstep (hvalues t (by simp))⟩
  · obtain rfl := eq_refuse_of_finish hclose
    exact ⟨close, by simp, reports_refuse r' close⟩

/-- The same, where some literal may have no value. -/
theorem found_of_read {close : Token} {ts : List Token} (h : r.read close ts = .error e) :
    ∃ t ∈ ts ++ [close], e.found? = some t := by
  rcases exists_refusal_of_read h with ⟨before, t, after, r', rfl, -, hstep⟩ | ⟨r', -, hclose⟩
  · exact ⟨t, by simp, found_of_step hstep⟩
  · obtain rfl := eq_refuse_of_finish hclose
    exact ⟨close, by simp, (reports_refuse r' close).1⟩

end Reading

namespace Declaration

/-- **Which texts are read.**  Let a text be cut into tokens, and let its literals have values.  It
is read exactly if the tokens are a grammar text.  Then, however one splits them into directives and
rules, the tokens and the last start symbol of the directives are declared, the first rule's name
replaces a missing start symbol, and each rule says what its tokens say.  Otherwise the text is
refused with a message about one of its tokens, its end included. -/
theorem exists_ofText_iff_isGrammarText [Platform] {text : List Char} {ts : TokenList}
    (hscan : TokenList.scan text = .ok ts) (hvalues : ∀ t ∈ ts.tokens, t.HasValue) :
    ((∃ d, ofText text = .ok d) ↔ IsGrammarText ts.tokens) ∧
      (∀ d, ofText text = .ok d → ∀ directives rules : List (List Token),
        ts.tokens = directives.flatten ++ rules.flatten →
        (∀ c ∈ directives, IsTokenDirective c ∨ IsStartDirective c) → (∀ c ∈ rules, IsRule c) →
          d.tokens = directives.flatMap declaredTokens ∧
          d.start = (directives.filterMap declaredStart?).getLast?.or d.ruleNames.head? ∧
          d.rules.map Rule.pieces = rules.map (·.map Token.piece)) ∧
      ∀ e, ofText text = .error e →
        (e.message? text).isSome ∧ ∃ t ∈ ts.toList, e.found? = some t := by
  have hread : ofText text = Reading.initial.read ts.close ts.tokens := by
    rw [ofText, hscan]
    rfl
  have hrules : ∀ directives rules : List (List Token),
      ts.tokens = directives.flatten ++ rules.flatten → ∀ t ∈ rules.flatten, t.HasValue :=
    fun directives rules hts t ht => hvalues t (hts ▸ List.mem_append_right _ ht)
  rw [hread]
  refine ⟨⟨fun ⟨d, h⟩ => Reading.isGrammarText_of_read h, ?_⟩, ?_, fun e h => ?_⟩
  · rintro ⟨directives, rules, hts, hd, hr⟩
    obtain ⟨d, hok, -⟩ :=
      Reading.read_isGrammarText hd hr (hrules directives rules hts) ts.close
    exact ⟨d, hts ▸ hok⟩
  · intro d h directives rules hts hd hr
    obtain ⟨d', hok, hfaithful⟩ :=
      Reading.read_isGrammarText hd hr (hrules directives rules hts) ts.close
    rw [← hts, h] at hok
    obtain rfl := Except.ok.inj hok
    exact hfaithful
  · obtain ⟨t, ht, hfound, hoffset⟩ := Reading.exists_reports_of_read h hvalues
    refine ⟨?_, t, ht, hfound⟩
    rw [SourceError.message?, Option.isSome_map]
    exact hoffset

theorem eq_ok_of_toOption {ε α : Type} {x : Except ε α} {a : α} (h : x.toOption = some a) :
    x = .ok a := by
  cases x <;> cases h
  rfl

/-- One directive and one rule: a literal by the name of a character, repeated. -/
theorem exists_ofText_repetition :
    letI := Platform.ofNames [("DIGIT ONE", '1')]
    ∃ d, ofText "%start s;s:'\\N\x7bDIGIT ONE\x7d'*;".toList = .ok d ∧
      d.tokens = [] ∧ d.start = some ("s" : Name) ∧ d.rules.map Rule.pieces =
        [[.name "s", .mark .colon, .literal "1", .mark .star, .mark .semicolon]] := by
  let directive : List Token := [⟨.percent, "%", ⟨0, 1, 1⟩, 1⟩, ⟨.identifier, "start", ⟨1, 1, 2⟩, 6⟩,
    ⟨.identifier, "s", ⟨7, 1, 8⟩, 8⟩, ⟨.semicolon, ";", ⟨8, 1, 9⟩, 9⟩]
  let digit : Token := ⟨.singleQuoted, "'\\N\x7bDIGIT ONE\x7d'", ⟨11, 1, 12⟩, 26⟩
  let rule : List Token := [⟨.identifier, "s", ⟨9, 1, 10⟩, 10⟩, ⟨.colon, ":", ⟨10, 1, 11⟩, 11⟩,
    digit, ⟨.star, "*", ⟨26, 1, 27⟩, 27⟩, ⟨.semicolon, ";", ⟨27, 1, 28⟩, 28⟩]
  let ts : TokenList := ⟨[directive].flatten ++ [rule].flatten, .endAt ⟨28, 1, 29⟩⟩
  have hscan : TokenList.scan "%start s;s:'\\N\x7bDIGIT ONE\x7d'*;".toList = .ok ts :=
    eq_ok_of_toOption (by decide +kernel)
  let := Platform.ofNames [("DIGIT ONE", '1')]
  have hdigit : literal digit.lexeme.toList = .ok "1" := eq_ok_of_toOption (by decide +kernel)
  have hvalues : ∀ t ∈ ts.tokens, t.HasValue := by
    simp only [ts, directive, rule, List.flatten_singleton, List.cons_append, List.nil_append,
      List.forall_mem_cons]
    simp [Token.HasValue, hdigit]
  have hdirective : IsStartDirective directive :=
    ⟨_, _, _, _, rfl, rfl, rfl, rfl, rfl, rfl⟩
  have hrule : IsRule rule :=
    ⟨_, _, [_, _], _, rfl, rfl, rfl, .last (.sequence_of_atom (.suffixed .singleQuoted (by simp))),
      rfl⟩
  obtain ⟨haccept, hfaithful, -⟩ := exists_ofText_iff_isGrammarText hscan hvalues
  obtain ⟨d, hd⟩ := haccept.2 ⟨[directive], [rule], rfl, by simp [hdirective], by simp [hrule]⟩
  obtain ⟨htokens, hstart, hrules⟩ := hfaithful d hd [directive] [rule] rfl
    (by simp [hdirective]) (by simp [hrule])
  refine ⟨d, hd, htokens, hstart, hrules.trans ?_⟩
  have hpiece : digit.piece = .literal "1" := by simp only [Token.piece, digit, hdigit]
  simp only [List.map_cons, List.map_nil, rule, hpiece]
  rfl

end Declaration

end Lookahead
