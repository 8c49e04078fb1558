import Little.Proofs.Grammar.Shape

/-!
# What stands where in a derivation tree

`Spells phrase trees` is `Derives` without the tokens: the trees, side by side, are what the phrase
stands for. Its rules take a right-hand side apart into the parts of a node
(`spells_token_seq_iff`, `spells_rule_seq_iff`). `Spells.parts_of` says that every part of a node
is a leaf or a tree of a rule that the right-hand side mentions.
-/

namespace Little

/-- The trees, side by side, are what the phrase stands for. -/
def Spells (phrase : Phrase) (trees : List Tree) : Prop := ∃ tokens, Derives phrase tokens trees

/-- A derivation tree of a rule. -/
def Tree.IsTreeOf (tree : Tree) (rule : Rule) : Prop := Spells (.rule rule) [tree]

/-- Every tree is a leaf or a derivation tree of a rule as given. -/
def PartsOf (isGood : Rule → Bool) (trees : List Tree) : Prop :=
  ∀ tree ∈ trees, (∃ token, tree = .leaf token) ∨
    ∃ rule : Rule, isGood rule = true ∧ tree.IsTreeOf rule

variable {trees : List Tree}

theorem Tree.IsDerivation.is_tree_of {tree : Tree} {rule : Rule} {tokens : List Token}
    (h : tree.IsDerivation rule tokens) : tree.IsTreeOf rule := ⟨tokens, h⟩

theorem Tree.is_tree_of_iff {tree : Tree} {rule : Rule} : tree.IsTreeOf rule ↔
    ∃ start stop children, tree = .node rule start stop children ∧ Spells rule.body children := by
  constructor
  · intro h
    obtain ⟨tokens, h⟩ := h
    obtain ⟨start, stop, children, rfl, hbody⟩ := Tree.is_derivation_iff.1 h
    exact ⟨start, stop, children, rfl, tokens, hbody⟩
  · intro h
    obtain ⟨start, stop, children, rfl, tokens, hbody⟩ := h
    exact ⟨tokens, .rule start stop hbody⟩

theorem spells_token_iff {kind : Kind} : Spells (.token kind) trees ↔
    ∃ token : Token, token.kind = kind ∧ trees = [.leaf token] := by
  simp only [Spells, derives_token_iff]
  exact ⟨fun ⟨_, token, hkind, _, htrees⟩ => ⟨token, hkind, htrees⟩,
    fun ⟨token, hkind, htrees⟩ => ⟨_, token, hkind, rfl, htrees⟩⟩

theorem spells_one_of_iff {kinds : List Kind} : Spells (.oneOf kinds) trees ↔
    ∃ token : Token, token.kind ∈ kinds ∧ trees = [.leaf token] := by
  simp only [Spells, derives_one_of_iff]
  exact ⟨fun ⟨_, token, hkind, _, htrees⟩ => ⟨token, hkind, htrees⟩,
    fun ⟨token, hkind, htrees⟩ => ⟨_, token, hkind, rfl, htrees⟩⟩

theorem spells_rule_iff {name : Rule} : Spells (.rule name) trees ↔
    ∃ tree : Tree, trees = [tree] ∧ tree.IsTreeOf name := by
  constructor
  · intro h
    obtain ⟨tokens, h⟩ := h
    obtain ⟨start, stop, children, rfl, hbody⟩ := derives_rule_iff.1 h
    exact ⟨_, rfl, tokens, h⟩
  · intro h
    obtain ⟨tree, rfl, h⟩ := h
    exact h

theorem spells_seq_iff {first second : Phrase} : Spells (.seq first second) trees ↔
    ∃ made rest, trees = made ++ rest ∧ Spells first made ∧ Spells second rest := by
  constructor
  · intro h
    obtain ⟨tokens, h⟩ := h
    obtain ⟨_, _, made, rest, -, htrees, hfirst, hsecond⟩ := derives_seq_iff.1 h
    exact ⟨made, rest, htrees, ⟨_, hfirst⟩, _, hsecond⟩
  · intro h
    obtain ⟨made, rest, rfl, ⟨_, hfirst⟩, _, hsecond⟩ := h
    exact ⟨_, .seq hfirst hsecond⟩

theorem spells_token_seq_iff {kind : Kind} {second : Phrase} :
    Spells (.seq (.token kind) second) trees ↔
      ∃ token rest, trees = .leaf token :: rest ∧ token.kind = kind ∧ Spells second rest := by
  simp only [spells_seq_iff, spells_token_iff]
  constructor
  · intro h
    obtain ⟨_, rest, rfl, ⟨token, hkind, rfl⟩, hsecond⟩ := h
    exact ⟨token, rest, rfl, hkind, hsecond⟩
  · intro h
    obtain ⟨token, rest, rfl, hkind, hsecond⟩ := h
    exact ⟨[.leaf token], rest, rfl, ⟨token, hkind, rfl⟩, hsecond⟩

theorem spells_rule_seq_iff {name : Rule} {second : Phrase} :
    Spells (.seq (.rule name) second) trees ↔
      ∃ tree rest, trees = tree :: rest ∧ tree.IsTreeOf name ∧ Spells second rest := by
  simp only [spells_seq_iff, spells_rule_iff]
  constructor
  · intro h
    obtain ⟨_, rest, rfl, ⟨tree, rfl, htree⟩, hsecond⟩ := h
    exact ⟨tree, rest, rfl, htree, hsecond⟩
  · intro h
    obtain ⟨tree, rest, rfl, htree, hsecond⟩ := h
    exact ⟨[tree], rest, rfl, ⟨tree, rfl, htree⟩, hsecond⟩

/-- Every part is a leaf or a derivation tree of a rule that the phrase mentions. -/
theorem Spells.parts_of {phrase : Phrase} {isGood : Rule → Bool} (h : Spells phrase trees)
    (hgood : phrase.mentionsOnly isGood = true) : PartsOf isGood trees := by
  obtain ⟨tokens, h⟩ := h
  induction h with
  | empty | optNone | starNil => exact fun _ hmem => absurd hmem List.not_mem_nil
  | token token | oneOf token =>
      intro tree hmem
      exact .inl ⟨token, List.mem_singleton.1 hmem⟩
  | @rule name _ _ start stop hbody _ =>
      intro tree hmem
      rw [List.mem_singleton.1 hmem]
      exact .inr ⟨name, hgood, _, .rule start stop hbody⟩
  | seq _ _ ih ih' =>
      rw [Phrase.mentionsOnly, Bool.and_eq_true] at hgood
      intro tree hmem
      exact (List.mem_append.1 hmem).elim (ih hgood.1 tree) (ih' hgood.2 tree)
  | starCons _ _ ih ih' =>
      intro tree hmem
      exact (List.mem_append.1 hmem).elim (ih hgood tree) (ih' hgood tree)
  | altLeft _ ih | forkLeft _ ih =>
      rw [Phrase.mentionsOnly, Bool.and_eq_true] at hgood
      exact ih hgood.1
  | altRight _ ih | forkRight _ ih =>
      rw [Phrase.mentionsOnly, Bool.and_eq_true] at hgood
      exact ih hgood.2
  | optSome _ ih => exact ih hgood

theorem PartsOf.leaf_or_tree_of {name : Rule} (h : PartsOf (· = name) trees) :
    ∀ tree ∈ trees, (∃ token, tree = .leaf token) ∨ tree.IsTreeOf name :=
  fun tree hmem => (h tree hmem).imp_right
    fun ⟨_, hrule, htree⟩ => of_decide_eq_true hrule ▸ htree

end Little
