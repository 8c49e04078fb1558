import Little.Proofs.Grammar.Derives

/-!
# The shape of the grammar

Choices are alike in most respects: `Phrase.branches` is what a choice chooses from, and
`Phrase.choice_induction` takes all of them as one case.

The rest are checks on the right-hand sides, each made once for all rules. `Rule.rank` bounds how
many rules can be entered one inside the other before a token is passed (`Rule.rank_body_le`);
where the token in view need not fit, `Rule.need` does (`Rule.need_body_le`). What is repeated
always stands for a token at least (`Rule.is_productive_body`). The mark at the end of the text
stands in one place only, at the very end of a program (`Rule.is_end_free_body`,
`Rule.ends_body_program`).
-/

namespace Little

namespace Rule

/-- How many rules can be entered inside a rule before a token is passed. -/
def rank : Rule → Nat
  | .program | .ident | .stringDecl | .stringValue | .varType | .function | .read | .write
  | .result | .addOp | .mulOp | .ifStatement | .elseBranch | .compareOp | .whileStatement => 0
  | .varDecl | .resultType | .identList | .param | .functions | .assignment | .call
  | .primary => 1
  | .declarations | .paramList | .simpleStatement | .operand => 2
  | .programBody | .statement | .factor => 3
  | .statements | .expr => 4
  | .functionBody | .arguments | .condition => 5

theorem rank_lt (rule : Rule) : rule.rank + 1 < all.length := by
  cases rule <;> decide

/-- The rank of a rule where it is certain that the token in view can start it, else how many rules
can be entered inside it before a token is passed in spite of whatever is wrong. -/
def need (certain : Bool) (rule : Rule) : Nat :=
  if certain then rule.rank
  else
    match rule with
    | .ident | .stringValue | .varType | .addOp | .mulOp | .compareOp => 0
    | .stringDecl | .resultType | .identList | .param | .functions | .primary => 1
    | .declarations | .varDecl | .paramList | .simpleStatement | .read | .write | .operand => 2
    | .programBody | .statement | .factor => 3
    | .program | .statements | .expr => 4
    | .functionBody | .assignment | .result | .arguments | .elseBranch | .condition => 5
    | .function | .call | .ifStatement | .whileStatement => 6

theorem need_lt (certain : Bool) (rule : Rule) : rule.need certain + 1 < all.length := by
  cases certain <;> cases rule <;> decide

end Rule

namespace Phrase

/-- What a choice chooses from. -/
def branches : Phrase → List Phrase
  | .alt left right | .fork _ _ left right => [left, right]
  | .opt body => [body]
  | _ => []

/-- What a choice has only if all that it chooses from have it. -/
theorem of_branch (holds : Phrase → Prop)
    (halt : ∀ left right, holds (.alt left right) → holds left ∧ holds right)
    (hfork : ∀ kind second left right,
      holds (.fork kind second left right) → holds left ∧ holds right)
    (hopt : ∀ body, holds (.opt body) → holds body) {phrase body : Phrase}
    (hmem : body ∈ phrase.branches) (h : holds phrase) : holds body := by
  have hpair {left right : Phrase} (hboth : holds left ∧ holds right)
      (hmem : body ∈ [left, right]) : holds body := by
    rcases List.mem_cons.1 hmem with rfl | hmem
    · exact hboth.1
    · exact List.mem_singleton.1 hmem ▸ hboth.2
  cases phrase with
  | alt left right => exact hpair (halt left right h) hmem
  | fork kind second left right => exact hpair (hfork kind second left right h) hmem
  | opt inner => exact List.mem_singleton.1 hmem ▸ hopt inner h
  | _ => exact absurd hmem List.not_mem_nil

/-- Induction over phrases in which all choices are one case. -/
@[elab_as_elim]
theorem choice_induction {motive : Phrase → Prop} (empty : motive .empty)
    (token : ∀ kind, motive (.token kind)) (oneOf : ∀ kinds, motive (.oneOf kinds))
    (rule : ∀ name, motive (.rule name))
    (seq : ∀ first second, motive first → motive second → motive (.seq first second))
    (star : ∀ body, motive body → motive (.star body))
    (choice : ∀ phrase : Phrase, phrase.branches ≠ [] →
      (∀ body ∈ phrase.branches, motive body) → motive phrase)
    (phrase : Phrase) : motive phrase := by
  induction phrase with
  | empty => exact empty
  | token kind => exact token kind
  | oneOf kinds => exact oneOf kinds
  | rule name => exact rule name
  | seq first second ih ih' => exact seq first second ih ih'
  | alt _ _ ih ih' | fork _ _ _ _ ih ih' =>
      refine choice _ (List.cons_ne_nil _ _) ?_
      exact List.forall_mem_cons.2 ⟨ih, List.forall_mem_singleton.2 ih'⟩
  | opt _ ih => exact choice _ (List.cons_ne_nil _ _) (List.forall_mem_singleton.2 ih)
  | star body ih => exact star body ih

/-- How many rules can be entered in a phrase, one inside the other, before a token is passed. -/
def rank : Phrase → Nat
  | .empty | .token _ | .oneOf _ => 0
  | .rule name => name.rank + 1
  | .seq first second => if first.isNullable then max first.rank second.rank else first.rank
  | .alt left right | .fork _ _ left right => max left.rank right.rank
  | .opt body | .star body => body.rank

theorem rank_lt (phrase : Phrase) : phrase.rank < Rule.all.length := by
  induction phrase with
  | empty | token | oneOf => exact Nat.zero_lt_succ _
  | rule name => exact name.rank_lt
  | seq first second ih ih' =>
      rw [rank]
      split
      · exact Nat.max_lt.2 ⟨ih, ih'⟩
      · exact ih
  | alt _ _ ih ih' | fork _ _ _ _ ih ih' => exact Nat.max_lt.2 ⟨ih, ih'⟩
  | opt _ ih | star _ ih => exact ih

theorem rank_first_le (first second : Phrase) : first.rank ≤ (Phrase.seq first second).rank := by
  rw [rank]
  split
  · exact Nat.le_max_left _ _
  · exact Nat.le_refl _

theorem rank_second_le {first : Phrase} (hnullable : first.isNullable = true) (second : Phrase) :
    second.rank ≤ (Phrase.seq first second).rank := by
  rw [rank, if_pos hnullable]
  exact Nat.le_max_right _ _

theorem rank_of_branch {phrase body : Phrase} (hmem : body ∈ phrase.branches) :
    body.rank ≤ phrase.rank := by
  have hbound : ∀ bound, phrase.rank ≤ bound → body.rank ≤ bound := fun bound =>
    of_branch (·.rank ≤ bound) (fun _ _ => Nat.max_le.1) (fun _ _ _ _ => Nat.max_le.1)
      (fun _ h => h) hmem
  exact hbound _ (Nat.le_refl _)

/-- How many rules can be entered in a phrase, one inside the other, before a token is passed. A
part is certainly read for a token that can start it where a choice led to it, or where it is the
first part of what is so read. -/
def need : Bool → Phrase → Nat
  | _, .empty | _, .token _ | _, .oneOf _ => 0
  | certain, .rule name => name.need certain + 1
  | certain, .seq first second =>
    if certain && !first.isNullable then first.need true
    else max (first.need false) (second.need false)
  | _, .alt left right | _, .fork _ _ left right => max (left.need true) (right.need true)
  | _, .opt body | _, .star body => body.need true

theorem need_lt (certain : Bool) (phrase : Phrase) : phrase.need certain < Rule.all.length := by
  induction phrase generalizing certain with
  | empty | token | oneOf => exact Nat.zero_lt_succ _
  | rule name => exact name.need_lt certain
  | seq first second ih ih' =>
      rw [need]
      split
      · exact ih true
      · exact Nat.max_lt.2 ⟨ih false, ih' false⟩
  | alt _ _ ih ih' | fork _ _ _ _ ih ih' => exact Nat.max_lt.2 ⟨ih true, ih' true⟩
  | opt _ ih | star _ ih => exact ih true

theorem need_of_branch {phrase body : Phrase} (hmem : body ∈ phrase.branches) (certain : Bool) :
    body.need true ≤ phrase.need certain := by
  have hbound : ∀ bound, phrase.need true ≤ bound → body.need true ≤ bound := fun bound =>
    of_branch (·.need true ≤ bound) (fun _ _ => Nat.max_le.1) (fun _ _ _ _ => Nat.max_le.1)
      (fun _ h => h) hmem
  refine hbound _ (Nat.le_of_eq ?_)
  cases phrase with
  | alt | fork | opt => rfl
  | _ => exact absurd hmem List.not_mem_nil

/-- Whether everything that is repeated in a phrase stands for a token at least. -/
def isProductive : Phrase → Bool
  | .empty | .token _ | .oneOf _ | .rule _ => true
  | .seq first second => first.isProductive && second.isProductive
  | .alt left right | .fork _ _ left right => left.isProductive && right.isProductive
  | .opt body => body.isProductive
  | .star body => !body.isNullable && body.isProductive

/-- Whether all rules that are mentioned in a phrase are as given. -/
def mentionsOnly (isGood : Rule → Bool) : Phrase → Bool
  | .empty | .token _ | .oneOf _ => true
  | .rule name => isGood name
  | .seq first second => first.mentionsOnly isGood && second.mentionsOnly isGood
  | .alt left right | .fork _ _ left right => left.mentionsOnly isGood && right.mentionsOnly isGood
  | .opt body | .star body => body.mentionsOnly isGood

/-- Whether the mark at the end of the text has no place in a phrase. -/
def isEndFree : Phrase → Bool
  | .empty => true
  | .token kind => kind != .eof
  | .oneOf kinds => !kinds.contains .eof
  | .rule name => name != .program
  | .seq first second => first.isEndFree && second.isEndFree
  | .alt left right | .fork _ _ left right => left.isEndFree && right.isEndFree
  | .opt body | .star body => body.isEndFree

/-- Whether the mark at the end of the text stands at the end of a phrase and nowhere else. -/
def ends : Phrase → Bool
  | .token kind => kind == .eof
  | .seq first second => first.isEndFree && second.ends
  | _ => false

section Branches

variable {phrase body : Phrase}

theorem is_productive_of_branch (hmem : body ∈ phrase.branches)
    (h : phrase.isProductive = true) : body.isProductive = true :=
  of_branch (·.isProductive = true) (fun _ _ => Bool.and_eq_true_iff.1)
    (fun _ _ _ _ => Bool.and_eq_true_iff.1) (fun _ h => h) hmem h

theorem mentions_only_of_branch {isGood : Rule → Bool} (hmem : body ∈ phrase.branches)
    (h : phrase.mentionsOnly isGood = true) : body.mentionsOnly isGood = true :=
  of_branch (·.mentionsOnly isGood = true) (fun _ _ => Bool.and_eq_true_iff.1)
    (fun _ _ _ _ => Bool.and_eq_true_iff.1) (fun _ h => h) hmem h

theorem is_end_free_of_branch (hmem : body ∈ phrase.branches) (h : phrase.isEndFree = true) :
    body.isEndFree = true :=
  of_branch (·.isEndFree = true) (fun _ _ => Bool.and_eq_true_iff.1)
    (fun _ _ _ _ => Bool.and_eq_true_iff.1) (fun _ h => h) hmem h

/-- The mark at the end has its place in the second part of a sequence or none. -/
theorem is_end_free_of_seq {first second : Phrase}
    (h : (Phrase.seq first second).isEndFree = true ∨ (Phrase.seq first second).ends = true) :
    first.isEndFree = true ∧ (second.isEndFree = true ∨ second.ends = true) := by
  rcases h with hfree | hends
  · rw [isEndFree, Bool.and_eq_true] at hfree
    exact ⟨hfree.1, .inl hfree.2⟩
  · rw [ends, Bool.and_eq_true] at hends
    exact ⟨hends.1, .inr hends.2⟩

/-- No choice ends with the mark at the end. -/
theorem is_end_free_of_choice (hchoice : phrase.branches ≠ [])
    (h : phrase.isEndFree = true ∨ phrase.ends = true) : phrase.isEndFree = true := by
  cases phrase with
  | alt | opt | fork => exact h.resolve_right Bool.false_ne_true
  | _ => exact absurd rfl hchoice

end Branches

end Phrase

/-- What is derived from a branch is derived from the choice. -/
theorem Derives.of_branch {phrase body : Phrase} {tokens : List Token} {trees : List Tree}
    (hmem : body ∈ phrase.branches) (h : Derives body tokens trees) :
    Derives phrase tokens trees := by
  cases phrase with
  | alt left right =>
      rcases List.mem_cons.1 hmem with rfl | hmem
      · exact .altLeft h
      · exact .altRight (List.mem_singleton.1 hmem ▸ h)
  | fork kind second left right =>
      rcases List.mem_cons.1 hmem with rfl | hmem
      · exact .forkLeft h
      · exact .forkRight (List.mem_singleton.1 hmem ▸ h)
  | opt inner => exact .optSome (List.mem_singleton.1 hmem ▸ h)
  | _ => exact absurd hmem List.not_mem_nil

namespace Rule

theorem rank_body_le (rule : Rule) : rule.body.rank ≤ rule.rank := by
  cases rule <;> decide

theorem need_body_le (certain : Bool) (rule : Rule) :
    rule.body.need certain ≤ rule.need certain := by
  cases certain <;> cases rule <;> decide

theorem is_productive_body (rule : Rule) : rule.body.isProductive = true := by
  cases rule <;> rfl

theorem is_end_free_body {rule : Rule} (h : rule ≠ .program) : rule.body.isEndFree = true := by
  cases rule with
  | program => exact absurd rfl h
  | _ => rfl

theorem ends_body_program : Rule.program.body.ends = true := rfl

/-- The mark at the end of the text stands at the end of a right-hand side or not at all. -/
theorem is_end_free_body_or_ends (rule : Rule) :
    rule.body.isEndFree = true ∨ rule.body.ends = true := by
  by_cases hrule : rule = .program
  · exact .inr (hrule ▸ ends_body_program)
  · exact .inl (is_end_free_body hrule)

end Rule

end Little
