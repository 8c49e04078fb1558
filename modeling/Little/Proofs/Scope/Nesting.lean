import Little.Proofs.Scope.Declarations

/-!
# Walking through statements

Statements can hold `IF`s, `ELSE`s and `WHILE`s, nested as deep as one likes.
`Tree.IsTreeOf.nested_induction` is the induction over all that can stand in statements; it takes a
block apart into what comes before its declarations, the declarations, and what is nested behind
them. `Tree.Walks` says that a walk through a tree does to the builder what the regions of the tree
do, and `Tree.IsTreeOf.walks` that it is so for everything nested.
-/

namespace Little

namespace Rule

/-- Whether a rule can stand within statements, other than declarations. -/
def isNested : Rule → Bool
  | .statements | .statement | .ifStatement | .elseBranch | .whileStatement => true
  | rule => rule.isInert

/-- Only the blocks hold statements that stand in a block of their own. -/
theorem is_nested_body {rule : Rule} (hnested : rule.isNested = true)
    (hcontrol : rule.isControl = false) :
    rule.body.mentionsOnly (fun part => part.isNested && part != .statements) = true := by
  revert hnested hcontrol
  cases rule <;> decide

/-- A nested rule that is no block declares nothing and is no region. -/
theorem plain_node {name : Rule} (hnested : name.isNested = true)
    (hcontrol : name.isControl = false) (start : Token) (stop : Option Token)
    (children : List Tree) :
    (Tree.node name start stop children).declarations = [] ∧
      (Tree.node name start stop children).region? = none := by
  cases name with
  | program | programBody | declarations | stringDecl | varDecl | paramList | functions
  | function | functionBody => exact absurd hnested Bool.false_ne_true
  | ifStatement | elseBranch | whileStatement => exact absurd hcontrol.symm Bool.false_ne_true
  | _ => exact ⟨rfl, rfl⟩

end Rule

/-- A block is made of parts without effect, its declarations, and what can stand in statements. -/
theorem Spells.control_parts {name : Rule} {children : List Tree}
    (hcontrol : name.isControl = true) (h : Spells name.body children) :
    ∃ front declarations back, children = front ++ declarations :: back ∧
      PartsOf Rule.isInert front ∧ declarations.IsTreeOf .declarations ∧
      PartsOf Rule.isNested back ∧
      ∀ start stop, (Tree.node name start stop children).region? =
        some (.block declarations.items) := by
  have hleaf (token : Token) : (∃ other : Token, Tree.leaf token = .leaf other) ∨
      ∃ rule : Rule, rule.isInert = true ∧ (Tree.leaf token).IsTreeOf rule := .inl ⟨token, rfl⟩
  have hcondition {tree : Tree} (htree : tree.IsTreeOf .condition) :
      (∃ token : Token, tree = .leaf token) ∨
        ∃ rule : Rule, rule.isInert = true ∧ tree.IsTreeOf rule := .inr ⟨_, rfl, htree⟩
  cases name with
  | ifStatement | whileStatement =>
      simp only [Rule.body, Phrase.row] at h
      obtain ⟨keyword, _, rfl, -, h⟩ := spells_token_seq_iff.1 h
      obtain ⟨left, _, rfl, -, h⟩ := spells_token_seq_iff.1 h
      obtain ⟨condition, _, rfl, hcond, h⟩ := spells_rule_seq_iff.1 h
      obtain ⟨right, _, rfl, -, h⟩ := spells_token_seq_iff.1 h
      obtain ⟨declarations, back, rfl, hdeclarations, h⟩ := spells_rule_seq_iff.1 h
      refine ⟨[.leaf keyword, .leaf left, condition, .leaf right], declarations, back, rfl, ?_,
        hdeclarations, h.parts_of (by decide), fun _ _ => rfl⟩
      simp only [PartsOf, List.forall_mem_cons]
      exact ⟨hleaf keyword, hleaf left, hcondition hcond, hleaf right,
        fun _ hmem => absurd hmem List.not_mem_nil⟩
  | elseBranch =>
      simp only [Rule.body, Phrase.row] at h
      obtain ⟨keyword, _, rfl, -, h⟩ := spells_token_seq_iff.1 h
      obtain ⟨declarations, back, rfl, hdeclarations, h⟩ := spells_rule_seq_iff.1 h
      refine ⟨[.leaf keyword], declarations, back, rfl, ?_, hdeclarations,
        h.parts_of (by decide), fun _ _ => rfl⟩
      simp only [PartsOf, List.forall_mem_cons]
      exact ⟨hleaf keyword, fun _ hmem => absurd hmem List.not_mem_nil⟩
  | _ => exact absurd hcontrol Bool.false_ne_true

/-- Induction over what can stand in statements. -/
theorem Tree.IsTreeOf.nested_induction {motive : Tree → Prop}
    (hleaf : ∀ token, motive (.leaf token))
    (hplain : ∀ (name : Rule) (start : Token) (stop : Option Token) (children : List Tree),
      name.isNested = true → name.isControl = false →
      PartsOf (fun part => part.isNested && part != .statements) children →
      (∀ tree ∈ children, motive tree) → motive (.node name start stop children))
    (hblock : ∀ (name : Rule) (start : Token) (stop : Option Token) (front : List Tree)
      (declarations : Tree) (back : List Tree), name.isControl = true →
      PartsOf Rule.isInert front → declarations.IsTreeOf .declarations →
      (Tree.node name start stop (front ++ declarations :: back)).region? =
        some (.block declarations.items) →
      (∀ tree ∈ back, motive tree) →
      motive (.node name start stop (front ++ declarations :: back)))
    {tree : Tree} {name : Rule} (h : tree.IsTreeOf name) (hnested : name.isNested = true) :
    motive tree := by
  suffices hall : ∀ {phrase : Phrase} {tokens : List Token} {trees : List Tree},
      Derives phrase tokens trees →
        ∀ tree ∈ trees, (∀ rule : Rule, tree.rule? = some rule → rule.isNested = true) →
          motive tree by
    obtain ⟨tokens, h⟩ := h
    obtain ⟨_, _, _, rfl, -⟩ := Tree.is_derivation_iff.1 h
    exact hall h _ (List.mem_singleton_self _) fun rule hrule => Option.some.inj hrule ▸ hnested
  intro phrase tokens trees h
  induction h with
  | empty | optNone | starNil => exact fun _ hmem => absurd hmem List.not_mem_nil
  | token token | oneOf token =>
      intro tree hmem _
      exact List.mem_singleton.1 hmem ▸ hleaf token
  | @rule name _ children start stop hbody ih =>
      intro tree hmem hnested
      obtain rfl := List.mem_singleton.1 hmem
      -- parts of a rule are looked up by what the right-hand side mentions
      have hparts {isGood : Rule → Bool} {trees : List Tree} (h : PartsOf isGood trees)
          (hgood : ∀ rule, isGood rule = true → rule.isNested = true)
          (hsub : ∀ tree ∈ trees, tree ∈ children) : ∀ tree ∈ trees, motive tree := by
        intro tree hmem
        rcases h tree hmem with ⟨token, rfl⟩ | ⟨rule, hrule, htree⟩
        · exact hleaf token
        · obtain ⟨_, _, _, rfl, -⟩ := is_tree_of_iff.1 htree
          exact ih _ (hsub _ hmem) fun other hother => Option.some.inj hother ▸ hgood rule hrule
      by_cases hcontrol : name.isControl = true
      · obtain ⟨front, declarations, back, rfl, hfront, hdeclarations, hback, hregion⟩ :=
          Spells.control_parts hcontrol ⟨_, hbody⟩
        exact hblock name start stop front declarations back hcontrol hfront hdeclarations
          (hregion start stop) (hparts hback (fun _ h => h) fun tree hmem => by simp [hmem])
      · rw [Bool.not_eq_true] at hcontrol
        have hchildren :=
          Spells.parts_of ⟨_, hbody⟩ (Rule.is_nested_body (hnested name rfl) hcontrol)
        exact hplain name start stop children (hnested name rfl) hcontrol hchildren
          (hparts hchildren (fun _ h => (Bool.and_eq_true_iff.1 h).1) fun _ hmem => hmem)
  | seq _ _ ih ih' | starCons _ _ ih ih' =>
      intro tree hmem
      exact (List.mem_append.1 hmem).elim (ih tree) (ih' tree)
  | altLeft _ ih | forkLeft _ ih | altRight _ ih | forkRight _ ih | optSome _ ih => exact ih

/-- Inert parts do nothing to the builder and have no regions. -/
theorem PartsOf.inert {trees : List Tree} (h : PartsOf Rule.isInert trees) (above : List Rule)
    (builder : Builder) :
    builder.walk (Tree.walkAll above trees) = .done builder ∧ Tree.regionsAll trees = [] := by
  induction trees with
  | nil => exact ⟨rfl, rfl⟩
  | cons tree trees ih =>
      obtain ⟨htree, hrest⟩ := List.forall_mem_cons.1 h
      obtain ⟨hwalk, hregions⟩ := ih hrest
      have hfirst : builder.walk (tree.walk above) = .done builder ∧ tree.regions = [] := by
        rcases htree with ⟨token, rfl⟩ | ⟨rule, hrule, htree⟩
        · exact ⟨rfl, rfl⟩
        · exact htree.inert hrule above builder
      rw [Tree.walkAll, Builder.walk_append, hfirst.1, Tree.regions_all_cons, hfirst.2, hregions]
      exact ⟨hwalk, rfl⟩

namespace Tree

/-- `Walks above tree` says that a walk through the tree does to any builder what the regions of the
tree do. -/
def Walks (above : List Rule) (tree : Tree) : Prop :=
  ∀ builder : Builder, builder.Listed → builder.Meets tree.regions (builder.walk (tree.walk above))

theorem walks_leaf (above : List Rule) (token : Token) : Walks above (.leaf token) :=
  fun builder _ => .refl builder

theorem walk_all_meets {above : List Rule} {trees : List Tree}
    (h : ∀ tree ∈ trees, tree.Walks above) {builder : Builder} (hlisted : builder.Listed) :
    builder.Meets (regionsAll trees) (builder.walk (walkAll above trees)) := by
  induction trees generalizing builder with
  | nil => exact .refl builder
  | cons tree trees ih =>
      obtain ⟨htree, hrest⟩ := List.forall_mem_cons.1 h
      rw [regions_all_cons, walkAll, Builder.walk_append]
      exact (htree builder hlisted).and_then fun next hnext => ih hrest (hnext.listed hlisted)

/-- A block is a region, and the others in it are nested behind its declarations. -/
theorem regions_block {name : Rule} {start : Token} {stop : Option Token}
    {front back : List Tree} {declarations : Tree} (hfront : PartsOf Rule.isInert front)
    (hdeclarations : declarations.IsTreeOf .declarations)
    (hregion : (Tree.node name start stop (front ++ declarations :: back)).region? =
      some (.block declarations.items)) :
    (Tree.node name start stop (front ++ declarations :: back)).regions =
      .block declarations.items :: regionsAll back := by
  rw [regions_node, hregion, regions_all_append, (hfront.inert [] .start).2, regions_all_cons,
    (hdeclarations.walk_declarations [] .start).2]
  rfl

/-- A block does what its region and those inside do. -/
theorem walks_block {name : Rule} {above : List Rule} {start : Token} {stop : Option Token}
    {front back : List Tree} {declarations : Tree} (hcontrol : name.isControl = true)
    (hfront : PartsOf Rule.isInert front) (hdeclarations : declarations.IsTreeOf .declarations)
    (hregion : (Tree.node name start stop (front ++ declarations :: back)).region? =
      some (.block declarations.items))
    (hback : ∀ tree ∈ back, tree.Walks (name :: above)) :
    Walks above (.node name start stop (front ++ declarations :: back)) := by
  intro builder hlisted
  have hblock : (Occurrence.mk above
      (.node name start stop (front ++ declarations :: back))).hasBlock = true := by
    cases name with
    | ifStatement | elseBranch | whileStatement => rfl
    | _ => exact absurd hcontrol Bool.false_ne_true
  have hparts : builder.openBlock.walk
      (walkAll (name :: above) (front ++ declarations :: back)) =
        (builder.openBlock.declareAll (declarations.items.map (some ·.declaration))).andThen
          (·.walk (walkAll (name :: above) back)) := by
    rw [walk_all_append, Builder.walk_append, (hfront.inert _ _).1, Outcome.done_and_then, walkAll,
      Builder.walk_append, (hdeclarations.walk_declarations _ _).1]
  rw [builder.walk_node_of_block hblock, hparts, regions_block hfront hdeclarations hregion]
  exact (builder.inside_open_block rfl).meets hlisted fun next hinside =>
    walk_all_meets hback (hinside.listed hlisted)

/-- A node without a scope of its own does what its parts do. -/
theorem walks_plain {name : Rule} {above : List Rule} {start : Token} {stop : Option Token}
    {children : List Tree} (hnested : name.isNested = true) (hcontrol : name.isControl = false)
    (habove : name = .statements → above.any Rule.isControl = true)
    (hchildren : ∀ tree ∈ children, tree.Walks (name :: above)) :
    Walks above (.node name start stop children) := by
  intro builder hlisted
  have hblock : (Occurrence.mk above (.node name start stop children)).hasBlock = false := by
    -- statements have a block of their own only outside of all others
    by_cases hstatements : name = .statements
    · obtain rfl := hstatements
      show (!above.any Rule.isControl) = false
      rw [habove rfl, Bool.not_true]
    · cases name with
      | statements => exact absurd rfl hstatements
      | _ => exact hcontrol
  obtain ⟨hdeclares, hregion⟩ := Rule.plain_node hnested hcontrol start stop children
  rw [builder.walk_node_of_no_scope hblock (by rintro rfl; exact absurd hnested (by decide))
    (by rintro rfl; exact absurd hnested (by decide)), hdeclares, regions_node, hregion]
  exact walk_all_meets hchildren hlisted

/-- A walk through what can stand in statements does what the regions there do. Statements are
walked through here only within a block. -/
theorem IsTreeOf.walks {tree : Tree} {name : Rule} (h : tree.IsTreeOf name)
    (hnested : name.isNested = true) {above : List Rule}
    (habove : name = .statements → above.any Rule.isControl = true) : tree.Walks above := by
  have hwalks : ∀ above : List Rule,
      (tree.rule? = some .statements → above.any Rule.isControl = true) → tree.Walks above := by
    refine nested_induction
      (motive := fun tree => ∀ above : List Rule,
        (tree.rule? = some .statements → above.any Rule.isControl = true) → tree.Walks above)
      (fun token above _ => walks_leaf above token) ?_ ?_ h hnested
    · intro name start stop children hnested hcontrol hparts ih above habove
      refine walks_plain hnested hcontrol (fun hname => habove (congrArg some hname))
        fun tree hmem => ih tree hmem _ fun hstatements => ?_
      -- outside of the blocks there are no statements in a nested rule
      rcases hparts tree hmem with ⟨token, rfl⟩ | ⟨rule, hrule, htree⟩
      · exact absurd hstatements.symm (Option.some_ne_none _)
      · obtain ⟨_, _, _, rfl, -⟩ := is_tree_of_iff.1 htree
        rw [Bool.and_eq_true, bne_iff_ne] at hrule
        exact absurd (Option.some.inj hstatements) hrule.2
    · intro name start stop front declarations back hcontrol hfront hdeclarations hregion ih above _
      exact walks_block hcontrol hfront hdeclarations hregion fun tree hmem =>
        ih tree hmem _ fun _ => by simp [hcontrol]
  obtain ⟨_, _, _, rfl, -⟩ := is_tree_of_iff.1 h
  exact hwalks above fun hstatements => habove (Option.some.inj hstatements)

end Tree

end Little
