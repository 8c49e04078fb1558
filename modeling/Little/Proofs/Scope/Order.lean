import Little.Proofs.Scope.Functions

/-!
# The outline is in source order

`StandIn tokens trees` says that the tokens are leaves of the trees, in this order. All identifiers
that an outline names stand so in the tree of the program (`ProgramParts.in_order`), so the
first of them in the outline is the first in the source.
-/

namespace Little

/-- The token at a leaf. -/
def Tree.token? : Tree → Option Token
  | .leaf token => some token
  | _ => none

/-- The tokens are leaves of the trees, in this order. -/
def StandIn (tokens : List Token) (trees : List Tree) : Prop :=
  (tokens.map Tree.leaf).Sublist (Tree.leavesAll trees)

namespace StandIn

variable {tokens more : List Token} {tree : Tree} {trees others : List Tree}

theorem nil (trees : List Tree) : StandIn [] trees := List.nil_sublist _

theorem append (h : StandIn tokens trees) (hmore : StandIn more others) :
    StandIn (tokens ++ more) (trees ++ others) := by
  unfold StandIn
  rw [List.map_append, Tree.leaves_all_append]
  exact List.Sublist.append h hmore

theorem cons (h : StandIn tokens [tree]) (hmore : StandIn more trees) :
    StandIn (tokens ++ more) (tree :: trees) := h.append hmore

theorem skip (tree : Tree) (h : StandIn tokens trees) : StandIn tokens (tree :: trees) :=
  (nil [tree]).append h

theorem last (h : StandIn tokens [tree]) (trees : List Tree) : StandIn tokens (tree :: trees) := by
  have happend := h.append (nil trees)
  rwa [List.append_nil] at happend

theorem node {name : Rule} {start : Token} {stop : Option Token} (h : StandIn tokens trees) :
    StandIn tokens [.node name start stop trees] := by
  unfold StandIn at h ⊢
  rwa [Tree.leavesAll, Tree.leaves, Tree.leavesAll, List.append_nil]

theorem leaf (token : Token) : StandIn [token] [.leaf token] := List.Sublist.refl _

end StandIn

namespace Tree

/-- The identifiers of a list stand in it. -/
theorem idents_stand_in {idents : List Tree} (make : Tree → Token → Item)
    (hmake : ∀ tree token, (make tree token).ident = token)
    (h : ∀ tree ∈ idents, (∃ token, tree = .leaf token) ∨ tree.IsTreeOf .ident) :
    StandIn ((idents.filterMap fun ident => ident.identifier?.map (make ident)).map Item.ident)
      idents := by
  induction idents with
  | nil => exact .nil []
  | cons tree idents ih =>
      obtain ⟨htree, hrest⟩ := List.forall_mem_cons.1 h
      rcases htree with ⟨token, rfl⟩ | htree
      · exact (ih hrest).skip _
      · obtain ⟨start, stop, token, rfl⟩ := htree.exists_leaf (.inl rfl)
        show StandIn ((make (.node .ident start stop [.leaf token]) token).ident :: _) _
        rw [hmake]
        exact (StandIn.leaf token).node.cons (ih hrest)

theorem IsTreeOf.own_items_stand_in {tree : Tree} {name : Rule} (h : tree.IsTreeOf name)
    (hname : name = .varDecl ∨ name = .stringDecl ∨ name = .param) :
    StandIn (tree.ownItems.map Item.ident) [tree] := by
  obtain ⟨start, stop, children, rfl, hbody⟩ := is_tree_of_iff.1 h
  refine StandIn.node ?_
  rcases hname with rfl | rfl | rfl
  · obtain ⟨type, _, rfl, htype, hbody⟩ := spells_rule_seq_iff.1 hbody
    obtain ⟨list, _, rfl, hlist, hbody⟩ := spells_rule_seq_iff.1 hbody
    obtain ⟨semicolon, -, rfl⟩ := spells_token_iff.1 hbody
    obtain ⟨_, _, token, rfl⟩ := htype.exists_leaf (.inr (.inl rfl))
    obtain ⟨_, _, idents, rfl, hidents⟩ := is_tree_of_iff.1 hlist
    have hparts : PartsOf (· = .ident) idents := hidents.parts_of (by decide)
    exact ((idents_stand_in (fun ident found => ⟨found, token.text, none, ident.location⟩)
      (fun _ _ => rfl) hparts.leaf_or_tree_of).node.last _).skip _
  · obtain ⟨keyword, _, rfl, -, hbody⟩ := spells_token_seq_iff.1 hbody
    obtain ⟨ident, _, rfl, hident, hbody⟩ := spells_rule_seq_iff.1 hbody
    obtain ⟨assign, _, rfl, -, hbody⟩ := spells_token_seq_iff.1 hbody
    obtain ⟨value, _, rfl, hvalue, hbody⟩ := spells_rule_seq_iff.1 hbody
    obtain ⟨semicolon, -, rfl⟩ := spells_token_iff.1 hbody
    obtain ⟨_, _, token, rfl⟩ := hident.exists_leaf (.inl rfl)
    obtain ⟨_, _, literal, rfl⟩ := hvalue.exists_leaf (.inr (.inr rfl))
    exact ((StandIn.leaf token).node.last _).skip _
  · obtain ⟨type, _, rfl, htype, hbody⟩ := spells_rule_seq_iff.1 hbody
    obtain ⟨ident, rfl, hident⟩ := spells_rule_iff.1 hbody
    obtain ⟨_, _, token, rfl⟩ := hident.exists_leaf (.inl rfl)
    obtain ⟨_, _, keyword, rfl⟩ := htype.exists_leaf (.inr (.inl rfl))
    exact (StandIn.leaf token).node.skip _

/-- The items of declarations and of parameters stand in them. -/
theorem IsTreeOf.items_stand_in {tree : Tree} {name : Rule} (h : tree.IsTreeOf name)
    (hname : name = .declarations ∨ name = .paramList) :
    StandIn (tree.items.map Item.ident) [tree] := by
  obtain ⟨start, stop, children, rfl, hbody⟩ := is_tree_of_iff.1 h
  refine StandIn.node ?_
  show StandIn ((children.flatMap ownItems).map Item.ident) children
  have hparts : PartsOf (fun part => part = .varDecl || part = .stringDecl || part = .param)
      children := by
    rcases hname with rfl | rfl <;> exact hbody.parts_of (by decide)
  clear h hbody
  induction children with
  | nil => exact .nil []
  | cons tree children ih =>
      obtain ⟨htree, hrest⟩ := List.forall_mem_cons.1 hparts
      rw [List.flatMap_cons, List.map_append]
      refine StandIn.cons ?_ (ih hrest)
      rcases htree with ⟨token, rfl⟩ | ⟨rule, hrule, htree⟩
      · exact .nil _
      · exact htree.own_items_stand_in (by simpa [or_assoc] using hrule)

/-- A tree whose regions name identifiers that stand in it in their order. -/
def InOrder (tree : Tree) : Prop := StandIn (tree.regions.flatMap Region.idents) [tree]

theorem in_order_leaf (token : Token) : InOrder (.leaf token) := .nil _

theorem in_order_all {trees : List Tree} (h : ∀ tree ∈ trees, tree.InOrder) :
    StandIn ((regionsAll trees).flatMap Region.idents) trees := by
  induction trees with
  | nil => exact .nil []
  | cons tree trees ih =>
      obtain ⟨htree, hrest⟩ := List.forall_mem_cons.1 h
      rw [regions_all_cons, List.flatMap_append]
      exact htree.cons (ih hrest)

/-- What is nested is in order: the declarations of a block stand before what is nested in it. -/
theorem IsTreeOf.in_order {tree : Tree} {name : Rule} (h : tree.IsTreeOf name)
    (hnested : name.isNested = true) : tree.InOrder := by
  refine nested_induction in_order_leaf ?_ ?_ h hnested
  · intro name start stop children hnested hcontrol _ ih
    unfold InOrder
    rw [regions_node, (Rule.plain_node hnested hcontrol start stop children).2]
    exact (in_order_all ih).node
  · intro name start stop front declarations back _ hfront hdeclarations hregion ih
    unfold InOrder
    rw [regions_block hfront hdeclarations hregion, List.flatMap_cons]
    refine ((StandIn.nil front).append ?_).node
    exact (hdeclarations.items_stand_in (.inl rfl)).cons (in_order_all ih)

end Tree

/-- The regions of a function are in order. -/
theorem FunctionParts.in_order (parts : FunctionParts) : parts.tree.InOrder := by
  obtain ⟨start, stop, token, hident⟩ := parts.hident.exists_leaf (.inl rfl)
  have hname : StandIn [token] [parts.ident] := hident ▸ (StandIn.leaf token).node
  have hparams := parts.hparams.items_stand_in (.inr rfl)
  have hitems := parts.body.hdeclarations.items_stand_in (.inl rfl)
  have hstatements := parts.body.hstatements.in_order rfl
  have hbody : StandIn (parts.body.declarations.items.map Item.ident ++
      parts.body.statements.regions.flatMap Region.idents) [parts.body.tree] :=
    (hitems.cons hstatements).node
  unfold Tree.InOrder
  rw [parts.regions_eq (congrArg Tree.identifier? hident), List.flatMap_cons, List.flatMap_cons]
  -- first the name, then the parameters, then the body, with other parts in between
  show StandIn (token :: parts.items.map Item.ident ++ ([] ++ _)) _
  rw [FunctionParts.items, List.map_append, List.nil_append, List.cons_append, List.append_assoc]
  exact (((hname.cons ((hparams.cons (((hbody.last _).skip _).skip _)).skip _)).skip _).skip
    _).node

/-- What a program names stands in it in the order of its outline. -/
theorem ProgramParts.in_order (parts : ProgramParts) :
    StandIn parts.tree.outline.idents [parts.tree] := by
  have hfunctions : parts.functions.InOrder := by
    obtain ⟨start, stop, children, heq, hbody⟩ := Tree.is_tree_of_iff.1 parts.hfunctions
    have hparts : PartsOf (· = .function) children := hbody.parts_of (by decide)
    rw [heq]
    unfold Tree.InOrder
    rw [Tree.regions_node]
    refine (Tree.in_order_all fun tree hmem => ?_).node
    rcases hparts.leaf_or_tree_of tree hmem with ⟨token, rfl⟩ | htree
    · exact Tree.in_order_leaf token
    · obtain ⟨function, rfl⟩ := FunctionParts.exists_of_tree htree
      exact function.in_order
  have hitems := parts.hdeclarations.items_stand_in (.inl rfl)
  have hbody : StandIn parts.tree.outline.idents [parts.body] := by
    rw [Outline.idents, Tree.outline, parts.regions_eq]
    exact (hitems.cons hfunctions).node
  exact ((((hbody.last _).skip _).skip _).skip _).node

namespace Outline

theorem map_ident_numbered (bodies : List (List Item)) (start : Nat) :
    ((bodies.zipIdx start).flatMap fun (body, index) => body.map fun item => (index, item)).map
        (·.2.ident) = bodies.flatMap (·.map Item.ident) := by
  induction bodies generalizing start with
  | nil => rfl
  | cons body bodies ih =>
      rw [List.zipIdx_cons, List.flatMap_cons, List.flatMap_cons, List.map_append, ih,
        List.map_map]
      rfl

theorem items_sublist (regions : List Region) :
    ((regions.map Region.items).flatMap (·.map Item.ident)).Sublist
      (regions.flatMap Region.idents) := by
  induction regions with
  | nil => exact List.nil_sublist _
  | cons region regions ih =>
      rw [List.map_cons, List.flatMap_cons, List.flatMap_cons]
      refine List.Sublist.append ?_ ih
      cases region with
      | function => exact List.sublist_cons_self _ _
      | statements | block => exact List.Sublist.refl _

/-- The declared identifiers are among those that the outline names, in the same order. -/
theorem declared_sublist (outline : Outline) :
    (outline.declared.map (·.2.ident)).Sublist outline.idents := by
  rw [declared, map_ident_numbered, bodies, List.flatMap_cons]
  exact (List.Sublist.refl _).append (items_sublist outline.regions)

end Outline

end Little
