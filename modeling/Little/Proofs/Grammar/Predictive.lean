import Little.Proofs.Grammar.Shape

/-!
# One token decides

`Rule.followKinds` is a table of the kinds of token that can stand behind a rule; the end of the
text can stand behind any, since any rule can be the one to start with. `Phrase.isPredictive` checks
that the table is closed under the right-hand sides and that at each choice the token in view
decides: the branches of a choice start differently, and what may be left out or repeated starts
differently from what stands behind it. Two tokens are needed at one place, where an operand is a
call or a primary (`Derives.exists_call`, `Derives.eq_singleton_of_primary`).
-/

namespace Little

namespace Rule

/-- The kinds of token that can stand behind a rule. -/
def followKinds : Rule → List Kind
  | .program => [.eof]
  | .ident =>
    [.eof, .kwBegin, .assign, .semicolon, .comma, .leftParen, .rightParen, .plus, .minus, .star,
     .slash, .less, .greater, .equal, .notEqual, .lessEqual, .greaterEqual]
  | .programBody | .functions | .functionBody => [.eof, .kwEnd]
  | .function => [.eof, .kwEnd, .kwFunction]
  | .declarations =>
    [.eof, .kwEnd, .kwFunction, .kwRead, .kwWrite, .kwReturn, .kwIf, .kwElse, .kwEndif, .kwWhile,
     .kwEndwhile, .identifier]
  | .stringDecl | .varDecl =>
    [.eof, .kwEnd, .kwString, .kwFloat, .kwInt, .kwFunction, .kwRead, .kwWrite, .kwReturn, .kwIf,
     .kwElse, .kwEndif, .kwWhile, .kwEndwhile, .identifier]
  | .stringValue => [.eof, .semicolon]
  | .varType | .resultType => [.eof, .identifier]
  | .identList => [.eof, .semicolon, .rightParen]
  | .paramList | .arguments | .condition => [.eof, .rightParen]
  | .param => [.eof, .comma, .rightParen]
  | .statements => [.eof, .kwEnd, .kwElse, .kwEndif, .kwEndwhile]
  | .statement | .simpleStatement | .assignment | .read | .write | .result | .ifStatement
  | .whileStatement =>
    [.eof, .kwEnd, .kwRead, .kwWrite, .kwReturn, .kwIf, .kwElse, .kwEndif, .kwWhile, .kwEndwhile,
     .identifier]
  | .expr =>
    [.eof, .semicolon, .comma, .rightParen, .less, .greater, .equal, .notEqual, .lessEqual,
     .greaterEqual]
  | .factor =>
    [.eof, .semicolon, .comma, .rightParen, .plus, .minus, .less, .greater, .equal, .notEqual,
     .lessEqual, .greaterEqual]
  | .operand | .call | .primary =>
    [.eof, .semicolon, .comma, .rightParen, .plus, .minus, .star, .slash, .less, .greater, .equal,
     .notEqual, .lessEqual, .greaterEqual]
  | .addOp | .mulOp | .compareOp =>
    [.eof, .leftParen, .identifier, .intLiteral, .floatLiteral]
  | .elseBranch => [.eof, .kwEndif]

/-- Whether a token of the kind can stand behind a rule. -/
def precedes (rule : Rule) (kind : Kind) : Bool := rule.followKinds.contains kind

theorem precedes_eof (rule : Rule) : rule.precedes .eof = true := by
  cases rule <;> rfl

/-- Whether a token of the kind can come next where `follow` is what is left of a rule. -/
def awaits (rule : Rule) (follow : Phrase) (kind : Kind) : Bool :=
  follow.startsWith kind || (follow.isNullable && rule.precedes kind)

end Rule

namespace Kind

/-- Whether no kind has both properties. -/
def areApart (left right : Kind → Bool) : Bool := all.all fun kind => !(left kind && right kind)

/-- Whether every kind that has the first property has the second. -/
def isWithin (inner outer : Kind → Bool) : Bool := all.all fun kind => !inner kind || outer kind

theorem are_apart_iff {left right : Kind → Bool} :
    areApart left right = true ↔ ∀ kind, right kind = true → left kind = false := by
  have hcases (kind : Kind) : (!(left kind && right kind)) = true ↔
      (right kind = true → left kind = false) := by
    cases left kind <;> cases right kind <;> decide
  simp only [areApart, List.all_eq_true, hcases, mem_all, true_imp_iff]

theorem is_within_iff {inner outer : Kind → Bool} :
    isWithin inner outer = true ↔ ∀ kind, inner kind = true → outer kind = true := by
  have hcases (kind : Kind) : (!inner kind || outer kind) = true ↔
      (inner kind = true → outer kind = true) := by
    cases inner kind <;> cases outer kind <;> decide
  simp only [isWithin, List.all_eq_true, hcases, mem_all, true_imp_iff]

end Kind

namespace Phrase

/-- Whether the token in view decides each choice in a phrase of a rule, where `follow` is what the
rule expects behind the phrase. -/
def isPredictive (rule : Rule) : Phrase → Phrase → Bool
  | .empty, _ | .token _, _ | .oneOf _, _ => true
  | .rule name, follow => Kind.isWithin (rule.awaits follow) name.precedes
  | .seq first second, follow =>
    first.isPredictive rule (.seq second follow) && second.isPredictive rule follow
  | .alt left right, follow =>
    !left.isNullable && !right.isNullable &&
      Kind.areApart (left.startsWith ·) (right.startsWith ·) &&
      left.isPredictive rule follow && right.isPredictive rule follow
  | .opt body, follow =>
    !body.isNullable && Kind.areApart (body.startsWith ·) (rule.awaits follow) &&
      body.isPredictive rule follow
  | .star body, follow =>
    !body.isNullable && Kind.areApart (body.startsWith ·) (rule.awaits follow) &&
      body.isPredictive rule (.seq (.star body) follow)
  | .fork kind second left right, follow =>
    kind = .identifier && second = .leftParen && left = .rule .call && right = .rule .primary &&
      !rule.awaits follow .leftParen && left.isPredictive rule follow &&
      right.isPredictive rule follow

theorem is_predictive_of_branch {rule : Rule} {phrase body follow : Phrase}
    (hmem : body ∈ phrase.branches) (h : phrase.isPredictive rule follow = true) :
    body.isPredictive rule follow = true := by
  refine of_branch (·.isPredictive rule follow = true) ?_ ?_ ?_ hmem h
  · intro left right h
    simp only [isPredictive, Bool.and_eq_true] at h
    exact ⟨h.1.2, h.2⟩
  · intro kind second left right h
    simp only [isPredictive, Bool.and_eq_true] at h
    exact ⟨h.1.2, h.2⟩
  · intro inner h
    simp only [isPredictive, Bool.and_eq_true] at h
    exact h.2

end Phrase

theorem Rule.is_predictive_body (rule : Rule) : rule.body.isPredictive rule .empty = true := by
  cases rule <;> decide +kernel

/-- Behind the first part of a sequence comes what the second can start with, or what is awaited
behind both. -/
theorem Derives.awaits_seq {rule : Rule} {second follow : Phrase} {back rest : List Token}
    {trees : List Tree} {eof : Token} (h : Derives second back trees)
    (hrest : rule.awaits follow (rest.headD eof).kind = true) :
    rule.awaits (.seq second follow) ((back ++ rest).headD eof).kind = true := by
  cases back with
  | nil =>
      rw [Rule.awaits, Bool.or_eq_true, Bool.and_eq_true] at hrest
      rw [List.nil_append]
      generalize (rest.headD eof).kind = kind at *
      rcases hrest with hstarts | ⟨hnullable, hprecedes⟩
      · simp [Rule.awaits, Phrase.startsWith, h.is_nullable, hstarts]
      · simp [Rule.awaits, Phrase.isNullable, h.is_nullable, hnullable, hprecedes]
  | cons token back =>
      rw [List.cons_append, List.headD_cons, Rule.awaits, Phrase.startsWith, h.starts_with]
      rfl

/-- A call begins with an identifier and a parenthesis. -/
theorem Derives.exists_call {tokens : List Token} {trees : List Tree}
    (h : Derives (.rule .call) tokens trees) :
    ∃ name paren rest, tokens = name :: paren :: rest ∧ name.kind = .identifier ∧
      paren.kind = .leftParen := by
  obtain ⟨_, _, _, -, hbody⟩ := derives_rule_iff.1 h
  simp only [Rule.body, Phrase.row, derives_seq_iff, derives_rule_iff, derives_token_iff] at hbody
  obtain ⟨_, _, _, _, rfl, -, ⟨_, _, _, -, name, hname, rfl, -⟩, _, _, _, _, rfl, -,
    ⟨paren, hparen, rfl, -⟩, -⟩ := hbody
  exact ⟨name, paren, _, rfl, hname, hparen⟩

/-- A primary that begins with an identifier is nothing else. -/
theorem Derives.eq_singleton_of_primary {token : Token} {rest : List Token} {trees : List Tree}
    (h : Derives (.rule .primary) (token :: rest) trees) (hkind : token.kind = .identifier) :
    rest = [] := by
  obtain ⟨_, _, _, -, hbody⟩ := derives_rule_iff.1 h
  simp only [Rule.body, Phrase.row, Phrase.choice, derives_alt_iff, derives_seq_iff,
    derives_rule_iff, derives_token_iff] at hbody
  rcases hbody with hparen | ⟨_, _, _, -, _, -, hident, -⟩ | ⟨_, -, hint, -⟩ | ⟨_, -, hfloat, -⟩
  · -- an expression in parentheses would begin with the parenthesis
    obtain ⟨_, _, _, _, htokens, -, ⟨paren, hparen, rfl, -⟩, -⟩ := hparen
    cases htokens
    rw [hkind] at hparen
    cases hparen
  · exact (List.cons.inj hident).2
  · exact (List.cons.inj hint).2
  · exact (List.cons.inj hfloat).2

end Little
