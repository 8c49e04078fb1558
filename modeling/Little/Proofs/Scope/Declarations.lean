import Little.Proofs.Grammar.Spells
import Little.Proofs.Scope.Regions

/-!
# Walking through declarations

Most rules do nothing to the builder at all (`Rule.isInert`). A list of declarations does nothing
but declare its items, one after the other (`Tree.IsTreeOf.walk_declarations`), and so does a list
of parameters (`Tree.IsTreeOf.walk_params`). The items are those that the outline reads off the
tree.
-/

namespace Little

namespace Rule

/-- Whether nothing in a rule declares anything or has a scope. -/
def isInert : Rule → Bool
  | .ident | .stringValue | .varType | .resultType | .identList | .param | .simpleStatement
  | .assignment | .read | .write | .result | .expr | .factor | .operand | .call | .arguments
  | .primary | .addOp | .mulOp | .condition | .compareOp => true
  | _ => false

theorem is_inert_body {rule : Rule} (h : rule.isInert = true) :
    rule.body.mentionsOnly isInert = true := by
  revert h
  cases rule <;> decide

end Rule

namespace Tree

/-- The regions in a row of trees. -/
def regionsAll (trees : List Tree) : List Region :=
  (occurrencesAll [] trees).filterMap (·.tree.region?)

mutual

/-- What stands above makes no difference to the parts of a tree. -/
theorem map_tree_occurrences (above : List Rule) (tree : Tree) :
    (tree.occurrences above).map (·.tree) = (tree.occurrences []).map (·.tree) := by
  cases tree with
  | node rule start stop children =>
      simp only [occurrences, List.map_cons, map_tree_occurrences_all (rule :: above) children,
        map_tree_occurrences_all [rule] children]
  | leaf | skipped | missing => rfl

theorem map_tree_occurrences_all (above : List Rule) (trees : List Tree) :
    (occurrencesAll above trees).map (·.tree) = (occurrencesAll [] trees).map (·.tree) := by
  cases trees with
  | nil => rfl
  | cons tree trees =>
      simp only [occurrencesAll, List.map_append, map_tree_occurrences above tree,
        map_tree_occurrences_all above trees]

end

@[simp] theorem regions_all_nil : regionsAll [] = [] := rfl

@[simp] theorem regions_all_cons (tree : Tree) (trees : List Tree) :
    regionsAll (tree :: trees) = tree.regions ++ regionsAll trees := by
  simp only [regionsAll, regions, occurrencesAll, List.filterMap_append]

@[simp] theorem regions_all_append (front back : List Tree) :
    regionsAll (front ++ back) = regionsAll front ++ regionsAll back := by
  induction front with
  | nil => rfl
  | cons tree front ih => simp [ih]

@[simp] theorem regions_leaf (token : Token) : (Tree.leaf token).regions = [] := rfl

theorem regions_node (rule : Rule) (start : Token) (stop : Option Token) (children : List Tree) :
    (Tree.node rule start stop children).regions =
      (Tree.node rule start stop children).region?.toList ++ regionsAll children := by
  have hchildren : (occurrencesAll [rule] children).filterMap (·.tree.region?) =
      regionsAll children := by
    have hmap := congrArg (List.filterMap region?) (map_tree_occurrences_all [rule] children)
    simpa only [List.filterMap_map, Function.comp_def, regionsAll] using hmap
  rw [regions, occurrences, List.filterMap_cons, hchildren]
  cases (Tree.node rule start stop children).region? <;> rfl

end Tree

/-- Nothing is due at the node of an inert rule. -/
theorem Rule.inert_node {name : Rule} (h : name.isInert = true) (above : List Rule)
    (start : Token) (stop : Option Token) (children : List Tree) :
    (Occurrence.mk above (.node name start stop children)).hasBlock = false ∧
      name ≠ .function ∧ name ≠ .functionBody ∧
      (Tree.node name start stop children).declarations = [] ∧
      (Tree.node name start stop children).region? = none := by
  cases name with
  | program | programBody | declarations | stringDecl | varDecl | paramList | functions
  | function | functionBody | statements | statement | ifStatement | elseBranch
  | whileStatement => exact absurd h Bool.false_ne_true
  | _ => exact ⟨rfl, nofun, nofun, rfl, rfl⟩

/-- An inert part of a tree does nothing to the builder and has no regions. -/
theorem Spells.inert {phrase : Phrase} {trees : List Tree} (h : Spells phrase trees)
    (hinert : phrase.mentionsOnly Rule.isInert = true) (above : List Rule) (builder : Builder) :
    builder.walk (Tree.walkAll above trees) = .done builder ∧ Tree.regionsAll trees = [] := by
  obtain ⟨tokens, h⟩ := h
  induction h generalizing above with
  | empty | optNone | starNil => exact ⟨rfl, rfl⟩
  | token | oneOf => exact ⟨rfl, rfl⟩
  | @rule name _ children start stop _ ih =>
      rw [Phrase.mentionsOnly] at hinert
      obtain ⟨hblock, hfunction, hbody, hdeclares, hregion⟩ :=
        Rule.inert_node hinert above start stop children
      obtain ⟨hwalk, hregions⟩ := ih (Rule.is_inert_body hinert) (name :: above)
      rw [Tree.regions_all_cons, Tree.regions_node, hregion, hregions, Tree.walkAll, Tree.walkAll,
        List.append_nil, builder.walk_node_of_no_scope hblock hfunction hbody, hdeclares]
      exact ⟨hwalk, rfl⟩
  | seq _ _ ih ih' =>
      rw [Phrase.mentionsOnly, Bool.and_eq_true] at hinert
      obtain ⟨hwalk, hregions⟩ := ih hinert.1 above
      obtain ⟨hwalk', hregions'⟩ := ih' hinert.2 above
      rw [Tree.walk_all_append, Builder.walk_append, hwalk, Tree.regions_all_append, hregions,
        hregions']
      exact ⟨hwalk', rfl⟩
  | starCons _ _ ih ih' =>
      obtain ⟨hwalk, hregions⟩ := ih hinert above
      obtain ⟨hwalk', hregions'⟩ := ih' hinert above
      rw [Tree.walk_all_append, Builder.walk_append, hwalk, Tree.regions_all_append, hregions,
        hregions']
      exact ⟨hwalk', rfl⟩
  | altLeft _ ih | forkLeft _ ih =>
      rw [Phrase.mentionsOnly, Bool.and_eq_true] at hinert
      exact ih hinert.1 above
  | altRight _ ih | forkRight _ ih =>
      rw [Phrase.mentionsOnly, Bool.and_eq_true] at hinert
      exact ih hinert.2 above
  | optSome _ ih => exact ih hinert above

namespace Tree

theorem text_node_leaf (rule : Rule) (start : Token) (stop : Option Token) (token : Token) :
    (Tree.node rule start stop [.leaf token]).text = token.text := by
  simp [text, textAll]

/-- Some rules stand for a single token. -/
theorem IsTreeOf.exists_leaf {tree : Tree} {name : Rule} (h : tree.IsTreeOf name)
    (hname : name = .ident ∨ name = .varType ∨ name = .stringValue) :
    ∃ start stop token, tree = .node name start stop [.leaf token] := by
  obtain ⟨start, stop, children, rfl, hbody⟩ := is_tree_of_iff.1 h
  rcases hname with rfl | rfl | rfl
  · obtain ⟨token, -, rfl⟩ := spells_token_iff.1 hbody
    exact ⟨start, stop, token, rfl⟩
  · obtain ⟨token, -, rfl⟩ := spells_one_of_iff.1 hbody
    exact ⟨start, stop, token, rfl⟩
  · obtain ⟨token, -, rfl⟩ := spells_token_iff.1 hbody
    exact ⟨start, stop, token, rfl⟩

/-- What a string declaration declares. -/
theorem IsTreeOf.declarations_string_decl {tree : Tree} (h : tree.IsTreeOf .stringDecl) :
    tree.declarations = tree.ownItems.map (some ·.declaration) := by
  obtain ⟨start, stop, children, rfl, hbody⟩ := is_tree_of_iff.1 h
  simp only [Rule.body, Phrase.row, spells_token_seq_iff, spells_rule_seq_iff,
    spells_token_iff] at hbody
  obtain ⟨keyword, _, rfl, -, ident, _, rfl, hident, assign, _, rfl, -, value, _, rfl, hvalue,
    semicolon, -, rfl⟩ := hbody
  obtain ⟨first, last, token, rfl⟩ := hident.exists_leaf (.inl rfl)
  obtain ⟨first', last', literal, rfl⟩ := hvalue.exists_leaf (.inr (.inr rfl))
  show [some (⟨⟨(Tree.node .ident first last [.leaf token]).text, "STRING",
    some (Tree.node .stringValue first' last' [.leaf literal]).text⟩, .ofToken first⟩ :
      Declaration)] = _
  rw [text_node_leaf, text_node_leaf]
  rfl

/-- What the identifiers of a variable declaration declare. -/
theorem map_idents_eq (type : String) {idents : List Tree}
    (h : ∀ tree ∈ idents, (∃ token, tree = .leaf token) ∨ tree.IsTreeOf .ident) :
    ((idents.filter (·.rule? == some .ident)).map fun ident =>
        some ⟨⟨ident.text, type, none⟩, ident.location⟩) =
      (idents.filterMap fun ident => ident.identifier?.map fun token =>
        (⟨token, type, none, ident.location⟩ : Item)).map (some ·.declaration) := by
  induction idents with
  | nil => rfl
  | cons tree idents ih =>
      rw [List.forall_mem_cons] at h
      obtain ⟨⟨token, rfl⟩ | htree, hrest⟩ := h
      · exact ih hrest
      · obtain ⟨start, stop, token, rfl⟩ := htree.exists_leaf (.inl rfl)
        rw [List.filter_cons_of_pos rfl, List.map_cons, ih hrest, text_node_leaf]
        rfl

/-- What a variable declaration declares. -/
theorem IsTreeOf.declarations_var_decl {tree : Tree} (h : tree.IsTreeOf .varDecl) :
    tree.declarations = tree.ownItems.map (some ·.declaration) := by
  obtain ⟨start, stop, children, rfl, hbody⟩ := is_tree_of_iff.1 h
  simp only [Rule.body, Phrase.row, spells_rule_seq_iff, spells_token_iff] at hbody
  obtain ⟨type, _, rfl, htype, list, _, rfl, hlist, semicolon, -, rfl⟩ := hbody
  obtain ⟨first, last, token, rfl⟩ := htype.exists_leaf (.inr (.inl rfl))
  obtain ⟨first', last', idents, rfl, hidents⟩ := is_tree_of_iff.1 hlist
  have hparts : PartsOf (· = .ident) idents := hidents.parts_of (by decide)
  have hdeclarations := map_idents_eq token.text hparts.leaf_or_tree_of
  show (((idents.filter (·.rule? == some .ident)).map fun ident =>
    (⟨⟨ident.text, (Tree.node .varType first last [.leaf token]).text, none⟩, ident.location⟩ :
      Declaration)).map some) = _
  rw [text_node_leaf, List.map_map]
  exact hdeclarations

theorem map_params_eq {params : List Tree}
    (h : ∀ tree ∈ params, (∃ token, tree = .leaf token) ∨ tree.IsTreeOf .param) :
    (params.filter (·.rule? == some .param)).map paramDeclaration =
      (params.flatMap ownItems).map (some ·.declaration) := by
  induction params with
  | nil => rfl
  | cons tree params ih =>
      rw [List.forall_mem_cons] at h
      obtain ⟨⟨token, rfl⟩ | htree, hrest⟩ := h
      · exact ih hrest
      · obtain ⟨start, stop, children, rfl, hbody⟩ := is_tree_of_iff.1 htree
        simp only [Rule.body, Phrase.row, spells_rule_seq_iff, spells_rule_iff] at hbody
        obtain ⟨type, _, rfl, htype, ident, rfl, hident⟩ := hbody
        obtain ⟨first, last, token, rfl⟩ := htype.exists_leaf (.inr (.inl rfl))
        obtain ⟨first', last', token', rfl⟩ := hident.exists_leaf (.inl rfl)
        rw [List.filter_cons_of_pos rfl, List.map_cons, ih hrest]
        show some (⟨⟨(Tree.node .ident first' last' [.leaf token']).text,
          (Tree.node .varType first last [.leaf token]).text, none⟩, .ofToken start⟩ :
            Declaration) :: _ = _
        rw [text_node_leaf, text_node_leaf]
        rfl

/-- What a list of parameters declares. -/
theorem IsTreeOf.declarations_params {tree : Tree} (h : tree.IsTreeOf .paramList) :
    tree.declarations = tree.items.map (some ·.declaration) := by
  obtain ⟨start, stop, params, rfl, hbody⟩ := is_tree_of_iff.1 h
  have hparts : PartsOf (· = .param) params := hbody.parts_of (by decide)
  exact map_params_eq hparts.leaf_or_tree_of

/-- An inert tree does nothing to the builder and has no regions. -/
theorem IsTreeOf.inert {tree : Tree} {name : Rule} (h : tree.IsTreeOf name)
    (hinert : name.isInert = true) (above : List Rule) (builder : Builder) :
    builder.walk (tree.walk above) = .done builder ∧ tree.regions = [] := by
  have hwalk := Spells.inert h hinert above builder
  simpa [walkAll] using hwalk

/-- A single declaration or a list of parameters does nothing but declare. -/
theorem IsTreeOf.walk_declaring {tree : Tree} {name : Rule} (h : tree.IsTreeOf name)
    (hname : name = .varDecl ∨ name = .stringDecl ∨ name = .paramList) (above : List Rule)
    (builder : Builder) :
    builder.walk (tree.walk above) = builder.declareAll tree.declarations ∧
      tree.regions = [] := by
  obtain ⟨start, stop, children, rfl, hbody⟩ := is_tree_of_iff.1 h
  have hinert : name.body.mentionsOnly Rule.isInert = true := by
    rcases hname with rfl | rfl | rfl <;> decide
  have hwalk (next : Builder) : next.walk (walkAll (name :: above) children) = .done next :=
    (hbody.inert hinert (name :: above) next).1
  have hregion : (Tree.node name start stop children).region? = none := by
    rcases hname with rfl | rfl | rfl <;> rfl
  rw [regions_node, hregion, (hbody.inert hinert [] builder).2,
    builder.walk_node_of_no_scope (by rcases hname with rfl | rfl | rfl <;> rfl)
      (by rcases hname with rfl | rfl | rfl <;> decide)
      (by rcases hname with rfl | rfl | rfl <;> decide), funext hwalk, Outcome.and_then_done]
  exact ⟨rfl, rfl⟩

/-- A list of declarations declares its items and has no regions. -/
theorem IsTreeOf.walk_declarations {tree : Tree} (h : tree.IsTreeOf .declarations)
    (above : List Rule) (builder : Builder) :
    builder.walk (tree.walk above) =
        builder.declareAll (tree.items.map (some ·.declaration)) ∧
      tree.regions = [] := by
  obtain ⟨start, stop, children, rfl, hbody⟩ := is_tree_of_iff.1 h
  rw [builder.walk_node_of_no_scope rfl (by decide) (by decide), regions_node]
  show builder.walk (walkAll (.declarations :: above) children) =
      builder.declareAll ((children.flatMap ownItems).map (some ·.declaration)) ∧
    regionsAll children = []
  have hparts : PartsOf (fun rule => rule = .stringDecl || rule = .varDecl) children :=
    hbody.parts_of (by decide)
  -- what is done to the builder is counted in single declarations from here on
  clear h hbody
  induction children generalizing builder with
  | nil => exact ⟨rfl, rfl⟩
  | cons tree children ih =>
      obtain ⟨htree, hrest⟩ := List.forall_mem_cons.1 hparts
      have hfirst : (∀ next : Builder, next.walk (tree.walk (.declarations :: above)) =
            next.declareAll (tree.ownItems.map (some ·.declaration))) ∧
          tree.regions = [] := by
        rcases htree with ⟨token, rfl⟩ | ⟨rule, hrule, htree⟩
        · exact ⟨fun _ => rfl, rfl⟩
        · rw [Bool.or_eq_true, decide_eq_true_eq, decide_eq_true_eq] at hrule
          rcases hrule with rfl | rfl
          · rw [← htree.declarations_string_decl]
            exact ⟨fun next => (htree.walk_declaring (by simp) _ next).1,
              (htree.walk_declaring (by simp) [] builder).2⟩
          · rw [← htree.declarations_var_decl]
            exact ⟨fun next => (htree.walk_declaring (by simp) _ next).1,
              (htree.walk_declaring (by simp) [] builder).2⟩
      obtain ⟨hwalk, hregions⟩ := hfirst
      rw [walkAll, Builder.walk_append, hwalk, List.flatMap_cons, List.map_append,
        Builder.declare_all_append, regions_all_cons, hregions]
      exact ⟨congrArg _ (funext fun next => (ih next hrest).1), (ih builder hrest).2⟩

/-- A list of parameters declares its items and has no regions. -/
theorem IsTreeOf.walk_params {tree : Tree} (h : tree.IsTreeOf .paramList) (above : List Rule)
    (builder : Builder) :
    builder.walk (tree.walk above) =
        builder.declareAll (tree.items.map (some ·.declaration)) ∧
      tree.regions = [] := by
  rw [← h.declarations_params]
  exact h.walk_declaring (by simp) above builder

end Tree

end Little
