import Little.Proofs.Grammar.Predictive

/-!
# Rows of tokens that can be completed

A row of tokens is viable for a phrase if more tokens behind it make it one that the phrase stands
for. Every phrase in the grammar stands for something (`Phrase.viable_nil`), so what is viable for
the first part of a sequence is viable for the sequence, and what is viable for the second part is
viable behind what the first part stands for. The mark at the end completes a program: nothing is
viable that goes on behind it (`Derives.eq_nil_of_ends`).
-/

namespace Little

/-- The tokens are the first ones of a row that the phrase stands for. -/
def Viable (phrase : Phrase) (front : List Token) : Prop :=
  ∃ rest trees, Derives phrase (front ++ rest) trees

section Completing

variable {phrase first second body : Phrase} {front back : List Token} {made : List Tree}

theorem Derives.viable (h : Derives phrase front made) : Viable phrase front :=
  ⟨[], made, by rwa [List.append_nil]⟩

namespace Viable

theorem of_longer (h : Viable phrase back) (hbegins : front <+: back) : Viable phrase front := by
  obtain ⟨tail, rfl⟩ := hbegins
  obtain ⟨rest, trees, hderives⟩ := h
  exact ⟨tail ++ rest, trees, by rwa [← List.append_assoc]⟩

theorem seq_first (h : Viable first front) (hsecond : Viable second []) :
    Viable (.seq first second) front := by
  obtain ⟨rest, trees, hderives⟩ := h
  obtain ⟨tail, others, htail⟩ := hsecond
  exact ⟨rest ++ tail, _, by rw [← List.append_assoc]; exact .seq hderives htail⟩

theorem seq_second (hfirst : Derives first front made) (h : Viable second back) :
    Viable (.seq first second) (front ++ back) := by
  obtain ⟨rest, trees, hderives⟩ := h
  exact ⟨rest, _, by rw [List.append_assoc]; exact .seq hfirst hderives⟩

theorem star_first (h : Viable body front) : Viable (.star body) front := by
  obtain ⟨rest, trees, hderives⟩ := h
  exact ⟨rest, _, by rw [← List.append_nil (front ++ rest)]; exact .starCons hderives .starNil⟩

theorem star_second (hbody : Derives body front made) (h : Viable (.star body) back) :
    Viable (.star body) (front ++ back) := by
  obtain ⟨rest, trees, hderives⟩ := h
  exact ⟨rest, _, by rw [List.append_assoc]; exact .starCons hbody hderives⟩

theorem of_branch (h : Viable body front) (hmem : body ∈ phrase.branches) :
    Viable phrase front := by
  obtain ⟨rest, trees, hderives⟩ := h
  exact ⟨rest, trees, hderives.of_branch hmem⟩

theorem rule {name : Rule} (h : Viable name.body front) : Viable (.rule name) front := by
  obtain ⟨rest, trees, hderives⟩ := h
  exact ⟨rest, _, .rule (.atEnd .start) none hderives⟩

end Viable

/-- What is viable for a phrase begins with a token that can start it. -/
theorem Viable.starts_with {token : Token} (h : Viable phrase (token :: front)) :
    phrase.startsWith token.kind = true := by
  obtain ⟨rest, trees, hderives⟩ := h
  exact hderives.starts_with

theorem Viable.token_cases {kind : Kind} {token : Token}
    (h : Viable (.token kind) (token :: front)) : token.kind = kind ∧ front = [] := by
  obtain ⟨rest, trees, hderives⟩ := h
  obtain ⟨_, hkind, htokens, -⟩ := derives_token_iff.1 hderives
  obtain ⟨rfl, hnil⟩ := List.cons.inj htokens
  exact ⟨hkind, (List.append_eq_nil_iff.1 hnil).1⟩

theorem Viable.one_of_cases {kinds : List Kind} {token : Token}
    (h : Viable (.oneOf kinds) (token :: front)) : token.kind ∈ kinds ∧ front = [] := by
  obtain ⟨rest, trees, hderives⟩ := h
  obtain ⟨_, hkind, htokens, -⟩ := derives_one_of_iff.1 hderives
  obtain ⟨rfl, hnil⟩ := List.cons.inj htokens
  exact ⟨hkind, (List.append_eq_nil_iff.1 hnil).1⟩

/-- What is viable for a sequence ends in the first part or goes on in the second. -/
theorem Viable.seq_cases (h : Viable (.seq first second) front) :
    Viable first front ∨ ∃ early token late made, front = early ++ token :: late ∧
      Derives first early made ∧ Viable second (token :: late) := by
  obtain ⟨rest, trees, hderives⟩ := h
  obtain ⟨early, back, made, others, htokens, -, hfirst, hsecond⟩ := derives_seq_iff.1 hderives
  rcases List.append_eq_append_iff.1 htokens with ⟨inside, rfl, -⟩ | ⟨inside, rfl, rfl⟩
  · exact .inl ⟨inside, made, hfirst⟩
  · cases inside with
    | nil => exact .inl (by rw [List.append_nil]; exact hfirst.viable)
    | cons token late => exact .inr ⟨early, token, late, made, rfl, hfirst, rest, others, hsecond⟩

/-- What is viable for a repetition ends in the first round or goes on behind it. -/
theorem Viable.star_cases {token : Token} (h : Viable (.star body) (token :: front)) :
    Viable body (token :: front) ∨ ∃ early next late made, token :: front = early ++ next :: late ∧
      Derives body early made ∧ Viable (.star body) (next :: late) := by
  obtain ⟨rest, trees, hderives⟩ := h
  rcases derives_star_iff.1 hderives with ⟨hnil, -⟩ | ⟨early, back, _, _, htokens, -, hbody, hstar⟩
  · cases hnil
  · have hboth := Derives.seq hbody hstar
    rw [← htokens] at hboth
    exact seq_cases ⟨rest, _, hboth⟩

theorem Viable.alt_cases (h : Viable (.alt first second) front) :
    Viable first front ∨ Viable second front := by
  obtain ⟨rest, trees, hderives⟩ := h
  exact (derives_alt_iff.1 hderives).imp (⟨rest, trees, ·⟩) (⟨rest, trees, ·⟩)

theorem Viable.fork_cases {kind other : Kind} (h : Viable (.fork kind other first second) front) :
    Viable first front ∨ Viable second front := by
  obtain ⟨rest, trees, hderives⟩ := h
  exact (derives_fork_iff.1 hderives).imp (⟨rest, trees, ·⟩) (⟨rest, trees, ·⟩)

theorem Viable.opt_body {token : Token} (h : Viable (.opt body) (token :: front)) :
    Viable body (token :: front) := by
  obtain ⟨rest, trees, hderives⟩ := h
  rcases derives_opt_iff.1 hderives with ⟨hnil, -⟩ | hbody
  · cases hnil
  · exact ⟨rest, trees, hbody⟩

theorem viable_body_iff {name : Rule} : Viable (.rule name) front ↔ Viable name.body front := by
  refine ⟨fun h => ?_, Viable.rule⟩
  obtain ⟨rest, trees, hderives⟩ := h
  obtain ⟨_, _, children, -, hbody⟩ := derives_rule_iff.1 hderives
  exact ⟨rest, children, hbody⟩

/-- What is viable for a rule are the first tokens of its sentences. -/
theorem viable_rule_iff {name : Rule} :
    Viable (.rule name) front ↔ ∃ rest, name.Derivable (front ++ rest) := by
  constructor
  · intro h
    obtain ⟨rest, trees, hderives⟩ := h
    obtain ⟨start, stop, children, rfl, -⟩ := derives_rule_iff.1 hderives
    exact ⟨rest, _, hderives⟩
  · intro h
    obtain ⟨rest, tree, hderives⟩ := h
    exact ⟨rest, [tree], hderives⟩

end Completing

namespace Phrase

/-- Whether a phrase stands for something if the rules do that are as given. -/
def closes (isGood : Rule → Bool) : Phrase → Bool
  | .empty | .token _ | .opt _ | .star _ => true
  | .oneOf kinds => !kinds.isEmpty
  | .rule name => isGood name
  | .seq first second => first.closes isGood && second.closes isGood
  | .alt left right | .fork _ _ left right => left.closes isGood || right.closes isGood

/-- Whether there is a kind to choose wherever in a phrase one of several is asked for. -/
def isFilled : Phrase → Bool
  | .empty | .token _ | .rule _ => true
  | .oneOf kinds => !kinds.isEmpty
  | .seq first second => first.isFilled && second.isFilled
  | .alt left right | .fork _ _ left right => left.isFilled && right.isFilled
  | .opt body | .star body => body.isFilled

theorem is_filled_of_branch {phrase body : Phrase} (hmem : body ∈ phrase.branches)
    (h : phrase.isFilled = true) : body.isFilled = true :=
  of_branch (·.isFilled = true) (fun _ _ => Bool.and_eq_true_iff.1)
    (fun _ _ _ _ => Bool.and_eq_true_iff.1) (fun _ h => h) hmem h

theorem closes_of_is_filled {phrase : Phrase} (h : phrase.isFilled = true) :
    phrase.closes (fun _ => true) = true := by
  induction phrase with
  | empty | token | rule | opt | star => rfl
  | oneOf kinds => exact h
  | seq first second ih ih' =>
      rw [isFilled, Bool.and_eq_true] at h
      rw [closes, ih h.1, ih' h.2, Bool.and_self]
  | alt left right ih _ | fork _ _ left right ih _ =>
      rw [isFilled, Bool.and_eq_true] at h
      rw [closes, ih h.1, Bool.true_or]

theorem viable_of_closes {phrase : Phrase} {isGood : Rule → Bool}
    (hgood : ∀ name, isGood name = true → Viable (.rule name) [])
    (h : phrase.closes isGood = true) : Viable phrase [] := by
  induction phrase with
  | empty => exact Derives.empty.viable
  | token kind => exact ⟨_, _, .token ⟨kind, "", .start⟩ rfl⟩
  | oneOf kinds =>
      cases kinds with
      | nil => exact absurd h Bool.false_ne_true
      | cons kind kinds => exact ⟨_, _, .oneOf ⟨kind, "", .start⟩ List.mem_cons_self⟩
  | rule name => exact hgood name h
  | seq first second ih ih' =>
      rw [closes, Bool.and_eq_true] at h
      exact (ih h.1).seq_first (ih' h.2)
  | alt left right ih ih' | fork _ _ left right ih ih' =>
      rw [closes, Bool.or_eq_true] at h
      rcases h with h | h
      · exact (ih h).of_branch List.mem_cons_self
      · exact (ih' h).of_branch (List.mem_cons_of_mem _ List.mem_cons_self)
  | opt body => exact Derives.optNone.viable
  | star body => exact Derives.starNil.viable

end Phrase

namespace Rule

/-- Whether a rule stands for something with rules nested in it to the depth given. -/
def closesIn : Nat → Rule → Bool
  | 0, _ => false
  | depth + 1, rule => rule.body.closes (closesIn depth)

theorem closes_in (rule : Rule) : rule.closesIn 6 = true := by
  cases rule <;> decide +kernel

theorem viable_nil_of_closes_in (depth : Nat) (rule : Rule) (h : rule.closesIn depth = true) :
    Viable (.rule rule) [] := by
  induction depth generalizing rule with
  | zero => exact absurd h Bool.false_ne_true
  | succ depth ih => exact (Phrase.viable_of_closes ih h).rule

theorem is_filled_body (rule : Rule) : rule.body.isFilled = true := by
  cases rule <;> rfl

end Rule

/-- Every phrase stands for something. -/
theorem Phrase.viable_nil {phrase : Phrase} (h : phrase.isFilled = true) : Viable phrase [] :=
  viable_of_closes (fun name _ => name.viable_nil_of_closes_in 6 name.closes_in)
    (closes_of_is_filled h)

section Operands

variable {token : Token} {front : List Token}

theorem viable_name (hkind : token.kind = .identifier) : Viable (.rule .ident) [token] := by
  have hbody : Viable Rule.ident.body [token] := (Derives.token token hkind).viable
  exact hbody.rule

/-- A name alone can begin a call. -/
theorem viable_call_of_name (hkind : token.kind = .identifier) : Viable (.rule .call) [token] := by
  have hbody : Viable Rule.call.body [token] :=
    (viable_name hkind).seq_first (Phrase.viable_nil rfl)
  exact hbody.rule

/-- A name alone is a primary. -/
theorem viable_primary_of_name (hkind : token.kind = .identifier) :
    Viable (.rule .primary) [token] := by
  obtain ⟨rest, trees, hname⟩ := viable_name hkind
  have hbody : Viable Rule.primary.body [token] := ⟨rest, trees, .altRight (.altLeft hname)⟩
  exact hbody.rule

/-- What begins with a name and is viable for an operand is viable for a call. -/
theorem Viable.call_of_fork {kind second : Kind}
    (h : Viable (.fork kind second (.rule .call) (.rule .primary)) (token :: front))
    (hkind : token.kind = .identifier) : Viable (.rule .call) (token :: front) := by
  rcases h.fork_cases with hcall | hprimary
  · exact hcall
  · obtain ⟨rest, trees, hderives⟩ := hprimary
    have hnil := hderives.eq_singleton_of_primary hkind
    obtain ⟨rfl, -⟩ := List.append_eq_nil_iff.1 hnil
    exact viable_call_of_name hkind

/-- It is viable for a primary if no parenthesis follows. -/
theorem Viable.primary_of_fork {kind second : Kind}
    (h : Viable (.fork kind second (.rule .call) (.rule .primary)) (token :: front))
    (hkind : token.kind = .identifier)
    (hfront : ∀ next ∈ front.head?, next.kind ≠ .leftParen) :
    Viable (.rule .primary) (token :: front) := by
  rcases h.fork_cases with hcall | hprimary
  · obtain ⟨rest, trees, hderives⟩ := hcall
    obtain ⟨name, paren, after, htokens, -, hparen⟩ := hderives.exists_call
    cases front with
    | nil => exact viable_primary_of_name hkind
    | cons next front =>
        cases htokens
        exact absurd hparen (hfront paren rfl)
  · exact hprimary

end Operands

section Ending

variable {phrase : Phrase} {tokens : List Token} {trees : List Tree}

/-- The mark at the end does not stand where it has no place. -/
theorem Derives.kind_ne_eof (h : Derives phrase tokens trees) (hfree : phrase.isEndFree = true) :
    ∀ token ∈ tokens, token.kind ≠ .eof := by
  induction h with
  | empty | optNone | starNil => exact nofun
  | token token hkind =>
      rw [Phrase.isEndFree, bne_iff_ne] at hfree
      exact List.forall_mem_singleton.2 (hkind ▸ hfree)
  | oneOf token hkind =>
      refine List.forall_mem_singleton.2 fun heof => ?_
      rw [heof] at hkind
      simp [Phrase.isEndFree, hkind] at hfree
  | rule _ _ _ ih =>
      rw [Phrase.isEndFree, bne_iff_ne] at hfree
      exact ih (Rule.is_end_free_body hfree)
  | seq _ _ ih ih' =>
      rw [Phrase.isEndFree, Bool.and_eq_true] at hfree
      exact List.forall_mem_append.2 ⟨ih hfree.1, ih' hfree.2⟩
  | altLeft _ ih | forkLeft _ ih =>
      rw [Phrase.isEndFree, Bool.and_eq_true] at hfree
      exact ih hfree.1
  | altRight _ ih | forkRight _ ih =>
      rw [Phrase.isEndFree, Bool.and_eq_true] at hfree
      exact ih hfree.2
  | optSome _ ih => exact ih hfree
  | starCons _ _ ih ih' => exact List.forall_mem_append.2 ⟨ih hfree, ih' hfree⟩

/-- Nothing stands behind the mark at the end. -/
theorem Derives.eq_nil_of_ends {front back : List Token} {mark : Token}
    (h : Derives phrase (front ++ mark :: back) trees) (hends : phrase.ends = true)
    (hmark : mark.kind = .eof) : back = [] := by
  induction phrase generalizing front trees with
  | token kind =>
      obtain ⟨token, -, htokens, -⟩ := derives_token_iff.1 h
      have hlength := congrArg List.length htokens
      rw [List.length_append, List.length_cons, List.length_singleton] at hlength
      exact List.eq_nil_of_length_eq_zero (by omega)
  | seq first second _ ih =>
      rw [Phrase.ends, Bool.and_eq_true] at hends
      obtain ⟨early, late, _, _, htokens, -, hfirst, hsecond⟩ := derives_seq_iff.1 h
      have hnot := hfirst.kind_ne_eof hends.1
      rcases List.append_eq_append_iff.1 htokens with ⟨inside, rfl, hlate⟩ | ⟨inside, rfl, hlate⟩
      · -- the first part goes up to the mark, or takes it in, which it cannot
        cases inside with
        | nil =>
            obtain rfl : mark :: back = late := hlate
            exact @ih _ [] hsecond hends.2
        | cons token inside =>
            obtain ⟨rfl, -⟩ := List.cons.inj hlate
            exact absurd hmark (hnot mark (List.mem_append_right _ List.mem_cons_self))
      · exact ih (hlate ▸ hsecond) hends.2
  | empty | oneOf | rule | alt | opt | star | fork => exact absurd hends Bool.false_ne_true

end Ending

end Little
