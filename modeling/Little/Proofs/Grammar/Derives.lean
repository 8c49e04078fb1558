import Little.Grammar.Starts
import Little.Tree

/-!
# Derivations

`Derives phrase tokens trees` says which rows of trees a phrase stands for, and which tokens they
are trees of. It knows nothing of how texts are read: a `fork` is a choice like any other here, and
the places that the parser notes at its nodes are free (`Tree.bare` leaves them out). The tokens of
a derivation are its leaves (`Derives.leaves_all_eq`). The last two results are what a reader with
one token in view relies on: `Derives.is_nullable` and `Derives.starts_with`.
-/

namespace Little

namespace Tree

mutual

/-- The leaves of a tree, from left to right. -/
def leaves : Tree → List Tree
  | .node _ _ _ children => leavesAll children
  | .leaf token => [.leaf token]
  | .skipped token => [.skipped token]
  | .missing kind line column => [.missing kind line column]

/-- The leaves of a row of trees. -/
def leavesAll : List Tree → List Tree
  | [] => []
  | tree :: trees => tree.leaves ++ leavesAll trees

end

mutual

/-- A tree without the places noted at its nodes. -/
def bare : Tree → Tree
  | .node rule _ _ children => .node rule (.atEnd .start) none (bareAll children)
  | .leaf token => .leaf token
  | .skipped token => .skipped token
  | .missing kind line column => .missing kind line column

/-- A row of trees without the places noted at their nodes. -/
def bareAll : List Tree → List Tree
  | [] => []
  | tree :: trees => tree.bare :: bareAll trees

end

@[simp] theorem leaves_all_append (front back : List Tree) :
    leavesAll (front ++ back) = leavesAll front ++ leavesAll back := by
  induction front with
  | nil => rfl
  | cons tree trees ih => simp only [List.cons_append, leavesAll, ih, List.append_assoc]

@[simp] theorem bare_all_append (front back : List Tree) :
    bareAll (front ++ back) = bareAll front ++ bareAll back := by
  induction front with
  | nil => rfl
  | cons tree trees ih => simp only [List.cons_append, bareAll, ih]

end Tree

/-- `Derives phrase tokens trees` says that `trees`, side by side, are what `phrase` stands for and
that `tokens` stand at their leaves. -/
inductive Derives : Phrase → List Token → List Tree → Prop where
  | empty : Derives .empty [] []
  | token {kind} (token : Token) :
      token.kind = kind → Derives (.token kind) [token] [.leaf token]
  | oneOf {kinds} (token : Token) :
      token.kind ∈ kinds → Derives (.oneOf kinds) [token] [.leaf token]
  | rule {rule tokens children} (start : Token) (stop : Option Token) :
      Derives rule.body tokens children →
      Derives (.rule rule) tokens [.node rule start stop children]
  | seq {first second front back made rest} :
      Derives first front made → Derives second back rest →
      Derives (.seq first second) (front ++ back) (made ++ rest)
  | altLeft {left right tokens trees} :
      Derives left tokens trees → Derives (.alt left right) tokens trees
  | altRight {left right tokens trees} :
      Derives right tokens trees → Derives (.alt left right) tokens trees
  | optNone {body} : Derives (.opt body) [] []
  | optSome {body tokens trees} : Derives body tokens trees → Derives (.opt body) tokens trees
  | starNil {body} : Derives (.star body) [] []
  | starCons {body front back made rest} :
      Derives body front made → Derives (.star body) back rest →
      Derives (.star body) (front ++ back) (made ++ rest)
  | forkLeft {kind second left right tokens trees} :
      Derives left tokens trees → Derives (.fork kind second left right) tokens trees
  | forkRight {kind second left right tokens trees} :
      Derives right tokens trees → Derives (.fork kind second left right) tokens trees

/-- A tree that derives tokens from a rule. -/
def Tree.IsDerivation (tree : Tree) (rule : Rule) (tokens : List Token) : Prop :=
  Derives (.rule rule) tokens [tree]

/-- Whether some tree derives the tokens from the rule. -/
def Rule.Derivable (rule : Rule) (tokens : List Token) : Prop :=
  ∃ tree : Tree, tree.IsDerivation rule tokens

variable {tokens : List Token} {trees : List Tree}

theorem derives_empty_iff : Derives .empty tokens trees ↔ tokens = [] ∧ trees = [] :=
  ⟨fun h => by cases h; exact ⟨rfl, rfl⟩, fun ⟨htokens, htrees⟩ => htokens ▸ htrees ▸ .empty⟩

theorem derives_token_iff {kind : Kind} : Derives (.token kind) tokens trees ↔
    ∃ token, token.kind = kind ∧ tokens = [token] ∧ trees = [.leaf token] := by
  constructor
  · intro h
    cases h with
    | token token hkind => exact ⟨token, hkind, rfl, rfl⟩
  · intro h
    obtain ⟨token, hkind, rfl, rfl⟩ := h
    exact .token token hkind

theorem derives_one_of_iff {kinds : List Kind} : Derives (.oneOf kinds) tokens trees ↔
    ∃ token, token.kind ∈ kinds ∧ tokens = [token] ∧ trees = [.leaf token] := by
  constructor
  · intro h
    cases h with
    | oneOf token hkind => exact ⟨token, hkind, rfl, rfl⟩
  · intro h
    obtain ⟨token, hkind, rfl, rfl⟩ := h
    exact .oneOf token hkind

theorem derives_rule_iff {rule : Rule} : Derives (.rule rule) tokens trees ↔
    ∃ start stop children, trees = [.node rule start stop children] ∧
      Derives rule.body tokens children := by
  constructor
  · intro h
    cases h with
    | rule start stop hbody => exact ⟨start, stop, _, rfl, hbody⟩
  · intro h
    obtain ⟨start, stop, children, rfl, hbody⟩ := h
    exact .rule start stop hbody

theorem derives_seq_iff {first second : Phrase} : Derives (.seq first second) tokens trees ↔
    ∃ front back made rest, tokens = front ++ back ∧ trees = made ++ rest ∧
      Derives first front made ∧ Derives second back rest := by
  constructor
  · intro h
    cases h with
    | seq hfirst hsecond => exact ⟨_, _, _, _, rfl, rfl, hfirst, hsecond⟩
  · intro h
    obtain ⟨front, back, made, rest, rfl, rfl, hfirst, hsecond⟩ := h
    exact .seq hfirst hsecond

theorem derives_alt_iff {left right : Phrase} : Derives (.alt left right) tokens trees ↔
    Derives left tokens trees ∨ Derives right tokens trees := by
  constructor
  · intro h
    cases h with
    | altLeft h => exact .inl h
    | altRight h => exact .inr h
  · intro h
    rcases h with h | h
    · exact .altLeft h
    · exact .altRight h

theorem derives_opt_iff {body : Phrase} : Derives (.opt body) tokens trees ↔
    (tokens = [] ∧ trees = []) ∨ Derives body tokens trees := by
  constructor
  · intro h
    cases h with
    | optNone => exact .inl ⟨rfl, rfl⟩
    | optSome h => exact .inr h
  · intro h
    rcases h with ⟨rfl, rfl⟩ | h
    · exact .optNone
    · exact .optSome h

theorem derives_star_iff {body : Phrase} : Derives (.star body) tokens trees ↔
    (tokens = [] ∧ trees = []) ∨
      ∃ front back made rest, tokens = front ++ back ∧ trees = made ++ rest ∧
        Derives body front made ∧ Derives (.star body) back rest := by
  constructor
  · intro h
    cases h with
    | starNil => exact .inl ⟨rfl, rfl⟩
    | starCons hbody hstar => exact .inr ⟨_, _, _, _, rfl, rfl, hbody, hstar⟩
  · intro h
    rcases h with ⟨rfl, rfl⟩ | ⟨front, back, made, rest, rfl, rfl, hbody, hstar⟩
    · exact .starNil
    · exact .starCons hbody hstar

theorem derives_fork_iff {kind second : Kind} {left right : Phrase} :
    Derives (.fork kind second left right) tokens trees ↔
      Derives left tokens trees ∨ Derives right tokens trees := by
  constructor
  · intro h
    cases h with
    | forkLeft h => exact .inl h
    | forkRight h => exact .inr h
  · intro h
    rcases h with h | h
    · exact .forkLeft h
    · exact .forkRight h

/-- The tokens of a derivation are its leaves, and none of them is an error. -/
theorem Derives.leaves_all_eq {phrase : Phrase} (h : Derives phrase tokens trees) :
    Tree.leavesAll trees = tokens.map .leaf := by
  induction h with
  | empty | optNone | starNil => rfl
  | token | oneOf => rfl
  | rule _ _ _ ih => simpa only [Tree.leavesAll, Tree.leaves, List.append_nil] using ih
  | seq _ _ ih ih' | starCons _ _ ih ih' =>
      rw [Tree.leaves_all_append, List.map_append, ih, ih']
  | altLeft _ ih | altRight _ ih | optSome _ ih | forkLeft _ ih | forkRight _ ih => exact ih

/-- A derivation tree has its tokens at its leaves. -/
theorem Tree.IsDerivation.leaves_eq {tree : Tree} {rule : Rule}
    (h : tree.IsDerivation rule tokens) : tree.leaves = tokens.map .leaf := by
  simpa only [Tree.leavesAll, List.append_nil] using Derives.leaves_all_eq h

/-- A derivation tree is a node of its rule, and what stands under it spells the right-hand
side. -/
theorem Tree.is_derivation_iff {tree : Tree} {rule : Rule} : tree.IsDerivation rule tokens ↔
    ∃ start stop children, tree = .node rule start stop children ∧
      Derives rule.body tokens children := by
  simp only [IsDerivation, derives_rule_iff, List.cons.injEq, and_true]

/-- A phrase that stands for no token at all is nullable. -/
theorem Derives.is_nullable {phrase : Phrase} (h : Derives phrase [] trees) :
    phrase.isNullable = true := by
  generalize htokens : ([] : List Token) = tokens at h
  induction h with
  | empty | optNone | optSome | starNil | starCons => rfl
  | token | oneOf => cases htokens
  | @rule name _ _ _ _ _ ih =>
      rw [Phrase.isNullable, ← Rule.is_nullable_body]
      exact ih htokens
  | seq _ _ ih ih' =>
      obtain ⟨hfront, hback⟩ := List.append_eq_nil_iff.1 htokens.symm
      rw [Phrase.isNullable, ih hfront.symm, ih' hback.symm]
      rfl
  | altLeft _ ih | forkLeft _ ih => rw [Phrase.isNullable, ih htokens, Bool.true_or]
  | altRight _ ih | forkRight _ ih => rw [Phrase.isNullable, ih htokens, Bool.or_true]

theorem Derives.ne_nil {phrase : Phrase} (h : Derives phrase tokens trees)
    (hnullable : phrase.isNullable = false) : tokens ≠ [] := by
  intro hnil
  rw [hnil] at h
  exact ne_true_of_eq_false hnullable h.is_nullable

/-- The first token that a phrase stands for is one that the phrase can start with. -/
theorem Derives.starts_with {phrase : Phrase} {token : Token} {rest : List Token}
    (h : Derives phrase (token :: rest) trees) : phrase.startsWith token.kind = true := by
  generalize htokens : token :: rest = tokens at h
  induction h generalizing rest with
  | empty | optNone | starNil => cases htokens
  | token _ hkind =>
      cases htokens
      simpa only [Phrase.startsWith, beq_iff_eq] using hkind.symm
  | oneOf _ hkind =>
      cases htokens
      simpa only [Phrase.startsWith, List.contains_iff_mem] using hkind
  | @rule name _ _ _ _ _ ih =>
      rw [Phrase.startsWith, ← Rule.starts_with_body]
      exact ih htokens
  | @seq first second front back _ _ hfirst _ ih ih' =>
      -- the token comes from the second part if the first stands for nothing
      cases front with
      | nil =>
          rw [Phrase.startsWith, hfirst.is_nullable, ih' htokens, Bool.and_self, Bool.or_true]
      | cons other front =>
          cases htokens
          rw [Phrase.startsWith, ih rfl, Bool.true_or]
  | altLeft _ ih | forkLeft _ ih => rw [Phrase.startsWith, ih htokens, Bool.true_or]
  | altRight _ ih | forkRight _ ih => rw [Phrase.startsWith, ih htokens, Bool.or_true]
  | optSome _ ih => exact ih htokens
  | @starCons body front back _ _ hbody _ ih ih' =>
      cases front with
      | nil => exact ih' htokens
      | cons other front =>
          cases htokens
          exact ih rfl

end Little
