import Lookahead.Source.Reader

/-!
# What a step of the reader does

`Reading.step` looks at the stage and at the kind of the token, and inside a rule also at what is
open and at what waits for a suffix.  `Reading.Moves` lists the steps that are made, one constructor
each, with all that the step depends on.

A step is made exactly if it is one of these moves (`Reading.step_eq_ok_iff`).  So whatever all steps
preserve is proved by cases on the move, and `step` is not unfolded again.
-/

namespace Lookahead

open Text (literal)

/-- The marks that are suffixes. -/
theorem TokenKind.mem_of_suffix? {k : TokenKind} {suffix : Suffix} (h : k.suffix? = some suffix) :
    k ∈ [TokenKind.question, .star, .plus] := by
  cases k <;> cases h <;> decide

namespace Reading

variable [Platform]

/-- What becomes of a reading when it takes the token. -/
inductive Moves (t : Token) : Reading → Reading → Prop
  /-- A directive begins, in front of all rules. -/
  | percent {d : Declaration} (hk : t.kind = .percent) (hrules : d.rules = []) :
      Moves t ⟨d, .between⟩ ⟨d, .directive⟩
  | tokenDirective {d : Declaration} (hk : t.kind = .identifier) (hword : t.lexeme = "token") :
      Moves t ⟨d, .directive⟩ ⟨d, .tokens none⟩
  | startDirective {d : Declaration} (hk : t.kind = .identifier) (hword : t.lexeme = "start") :
      Moves t ⟨d, .directive⟩ ⟨d, .start none⟩
  | terminal {d : Declaration} {last : Option Token} (hk : t.kind = .identifier) :
      Moves t ⟨d, .tokens last⟩ ⟨⟨d.tokens ++ [t.name], d.rules, d.start⟩, .tokens (some t)⟩
  | closeTokens {d : Declaration} {last : Token} (hk : t.kind = .semicolon) :
      Moves t ⟨d, .tokens (some last)⟩ ⟨d, .between⟩
  | startSymbol {d : Declaration} (hk : t.kind = .identifier) :
      Moves t ⟨d, .start none⟩ ⟨⟨d.tokens, d.rules, some t.name⟩, .start (some t)⟩
  | closeStart {d : Declaration} {last : Token} (hk : t.kind = .semicolon) :
      Moves t ⟨d, .start (some last)⟩ ⟨d, .between⟩
  /-- A rule begins. -/
  | lhs {d : Declaration} (hk : t.kind = .identifier) : Moves t ⟨d, .between⟩ ⟨d, .head t⟩
  | colon {d : Declaration} {name : Token} (hk : t.kind = .colon) :
      Moves t ⟨d, .head name⟩ ⟨d, .body name t [] .empty none⟩
  | name {d : Declaration} {name last : Token} {outer : List (Token × Level)} {level : Level}
      {pending : Option Atom} (hk : t.kind = .identifier) :
      Moves t ⟨d, .body name last outer level pending⟩
        ⟨d, .body name t outer (level.settle pending)
          (some (.leaf (.name t.name) .once (some t.span)))⟩
  | literal {d : Declaration} {name last : Token} {outer : List (Token × Level)} {level : Level}
      {pending : Option Atom} {text : Text} (hk : t.kind = .doubleQuoted ∨ t.kind = .singleQuoted)
      (hvalue : literal t.lexeme.toList = .ok text) :
      Moves t ⟨d, .body name last outer level pending⟩
        ⟨d, .body name t outer (level.settle pending)
          (some (.leaf (.literal text) .once (some t.span)))⟩
  | leftParen {d : Declaration} {name last : Token} {outer : List (Token × Level)} {level : Level}
      {pending : Option Atom} (hk : t.kind = .leftParen) :
      Moves t ⟨d, .body name last outer level pending⟩
        ⟨d, .body name t ((t, level.settle pending) :: outer) .empty none⟩
  | rightParen {d : Declaration} {name last opening : Token} {outer : List (Token × Level)}
      {level around : Level} {pending : Option Atom} (hk : t.kind = .rightParen) :
      Moves t ⟨d, .body name last ((opening, around) :: outer) level pending⟩
        ⟨d, .body name t outer around
          (some (.group (level.settle pending).alternatives .once (some opening.span)))⟩
  | bar {d : Declaration} {name last : Token} {outer : List (Token × Level)} {level : Level}
      {pending : Option Atom} (hk : t.kind = .bar) :
      Moves t ⟨d, .body name last outer level pending⟩
        ⟨d, .body name t outer (level.settle pending).bar none⟩
  | suffix {d : Declaration} {name last : Token} {outer : List (Token × Level)} {level : Level}
      {a : Atom} {suffix : Suffix} (hk : t.kind.suffix? = some suffix) :
      Moves t ⟨d, .body name last outer level (some a)⟩
        ⟨d, .body name t outer (level.push (a.withSuffix suffix)) none⟩
  /-- A rule ends, with no parenthesis open. -/
  | closeRule {d : Declaration} {name last : Token} {level : Level} {pending : Option Atom}
      (hk : t.kind = .semicolon) :
      Moves t ⟨d, .body name last [] level pending⟩
        ⟨⟨d.tokens, d.rules ++ [⟨name.name, (level.settle pending).alternatives,
          some ⟨name.start.offset, last.stop, name.start.line, name.start.column⟩⟩], d.start⟩,
          .between⟩

variable {t : Token} {r r' : Reading}

/-- Every move is a step that is made. -/
theorem Moves.step_eq (h : Moves t r r') : r.step t = .ok r' := by
  cases h with
  | percent hk hrules => simp only [step, hk, hrules, List.isEmpty_nil, if_true]
  | tokenDirective hk hword => simp only [step, hk, stepDirective, hword, if_true]
  | startDirective hk hword =>
    have hne : t.lexeme ≠ "token" := by simp [hword]
    simp only [step, hk, stepDirective, if_neg hne, if_pos hword]
  | literal hk hvalue => rcases hk with hk | hk <;> simp only [step, stepBody, hk, hvalue]
  | suffix hsuffix =>
    cases hk : t.kind <;> rw [hk] at hsuffix <;> cases hsuffix <;>
      simp only [step, stepBody, hk, TokenKind.suffix?]
  | terminal hk | closeTokens hk | startSymbol hk | closeStart hk | lhs hk | colon hk | name hk
  | leftParen hk | rightParen hk | bar hk | closeRule hk => simp only [step, stepBody, hk]

theorem moves_of_stepBody {d : Declaration} {name last : Token} {outer : List (Token × Level)}
    {level : Level} {pending : Option Atom}
    (h : stepBody d name last outer level pending t = .ok r') :
    Moves t ⟨d, .body name last outer level pending⟩ r' := by
  cases hk : t.kind <;> simp only [stepBody, hk, TokenKind.suffix?, reduceCtorEq] at h
  case identifier =>
    cases h
    exact .name hk
  case doubleQuoted =>
    split at h <;> cases h
    exact .literal (Or.inl hk) ‹_›
  case singleQuoted =>
    split at h <;> cases h
    exact .literal (Or.inr hk) ‹_›
  case leftParen =>
    cases h
    exact .leftParen hk
  case rightParen =>
    cases outer with
    | nil => cases h
    | cons o outer =>
      cases h
      exact .rightParen hk
  case bar =>
    cases h
    exact .bar hk
  case semicolon =>
    cases outer with
    | nil =>
      cases h
      exact .closeRule hk
    | cons o outer => cases h
  case question | star | plus =>
    cases pending with
    | none => cases h
    | some a =>
      cases h
      exact .suffix (by rw [hk]; rfl)

theorem moves_of_stepDirective {d : Declaration} (hk : t.kind = .identifier)
    (h : stepDirective d t = .ok r') : Moves t ⟨d, .directive⟩ r' := by
  unfold stepDirective at h
  split at h
  · cases h
    exact .tokenDirective hk ‹_›
  · split at h <;> cases h
    exact .startDirective hk ‹_›

/-- Every step that is made is a move. -/
theorem moves_of_step (h : r.step t = .ok r') : Moves t r r' := by
  obtain ⟨d, stage⟩ := r
  cases stage with
  | between =>
    cases hk : t.kind <;> simp only [step, hk, reduceCtorEq] at h
    case percent =>
      split at h <;> cases h
      exact .percent hk (List.isEmpty_iff.1 ‹_›)
    case identifier =>
      cases h
      exact .lhs hk
  | directive =>
    cases hk : t.kind <;> simp only [step, hk, reduceCtorEq] at h
    case identifier => exact moves_of_stepDirective hk h
  | tokens last =>
    cases last <;> cases hk : t.kind <;> simp only [step, hk, reduceCtorEq] at h
    case none.identifier | some.identifier =>
      cases h
      exact .terminal hk
    case some.semicolon =>
      cases h
      exact .closeTokens hk
  | start last =>
    cases last <;> cases hk : t.kind <;> simp only [step, hk, reduceCtorEq] at h
    case none.identifier =>
      cases h
      exact .startSymbol hk
    case some.semicolon =>
      cases h
      exact .closeStart hk
  | head name =>
    cases hk : t.kind <;> simp only [step, hk, reduceCtorEq] at h
    case colon =>
      cases h
      exact .colon hk
  | body name last outer level pending => exact moves_of_stepBody (by simpa only [step] using h)

/-- **Steps.**  A step is made exactly if it is one of the moves. -/
theorem step_eq_ok_iff : r.step t = .ok r' ↔ Moves t r r' := ⟨moves_of_step, Moves.step_eq⟩

end Reading

end Lookahead
