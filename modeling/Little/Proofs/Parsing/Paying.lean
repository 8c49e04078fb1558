import Little.Proofs.Parsing.Parts
import Little.Proofs.Parsing.Trail

/-!
# What the tokens pay for

Every token that is passed pays for `Rule.nodesPerToken` nodes. `Phrase.excess` bounds how many
more nodes than that can be made for a phrase (`Attempt.nodes_le`). Where the token in view can
start the phrase it is less than nothing for all that is repeated and for a few rules more, so these
never come without a token (`Attempt.passed_ne_nil`): each round of a repetition passes one
(`Attempt.paced`), and so do all declarations, functions and statements inside a tree
(`Parse.passed_of_node`). A tree has no more nodes than a multiple of the tokens and a few
(`Parse.nodes_le`).
-/

namespace Little

namespace Rule

/-- How many nodes a token pays for. -/
def nodesPerToken : Int := 13

/-- How many nodes can stand inside a node of the rule beyond those that the tokens in it pay for,
where the token in view is certain to start the rule and where it need not. -/
def excess : Bool → Rule → Int
  | false, .program | false, .assignment => 4
  | false, .programBody | false, .stringDecl | false, .param | false, .functionBody | false, .read
  | false, .write | false, .expr | false, .call | false, .elseBranch => 2
  | false, .varDecl | false, .result => 3
  | false, .identList | false, .factor => 1
  | false, .function => 6
  | false, .condition => 7
  | false, .ifStatement | false, .whileStatement => 10
  | false, _ => 0
  | true, .ident | true, .stringValue | true, .varType | true, .addOp | true, .mulOp
  | true, .compareOp => -13
  | true, .resultType | true, .identList => -12
  | true, .stringDecl | true, .param | true, .read | true, .write | true, .call
  | true, .elseBranch => -11
  | true, .varDecl | true, .result | true, .primary => -10
  | true, .program | true, .assignment | true, .operand => -9
  | true, .simpleStatement | true, .factor => -8
  | true, .function | true, .expr => -7
  | true, .ifStatement | true, .whileStatement => -3
  | true, .statement | true, .condition => -2
  | true, .programBody | true, .functionBody => 2
  | true, .declarations | true, .paramList | true, .functions | true, .statements
  | true, .arguments => 0

theorem excess_le (certain : Bool) (rule : Rule) : rule.excess certain ≤ 10 := by
  cases certain <;> cases rule <;> decide

end Rule

namespace Phrase

/-- How many nodes can be made for a phrase beyond those that the tokens passed for it pay for. -/
def excess : Bool → Phrase → Int
  | _, .empty | _, .star _ => 0
  | certain, .token kind => if certain && kind != .eof then -Rule.nodesPerToken else 0
  | certain, .oneOf kinds => if certain && !kinds.contains .eof then -Rule.nodesPerToken else 0
  | certain, .rule name => name.excess certain + 1
  | certain, .seq first second =>
    first.excess (certain && !first.isNullable) + second.excess false
  | certain, .alt left right | certain, .fork _ _ left right =>
    let taken := max (left.excess true) (right.excess true)
    if certain && !(left.isNullable || right.isNullable) then taken else max 0 taken
  | _, .opt body => max 0 (body.excess true)

/-- Whether what is repeated in a phrase is always paid for, with something left. -/
def isPaid : Phrase → Bool
  | .empty | .token _ | .oneOf _ | .rule _ => true
  | .seq first second => first.isPaid && second.isPaid
  | .alt left right | .fork _ _ left right => left.isPaid && right.isPaid
  | .opt body => body.isPaid
  | .star body => decide (body.excess true < 0) && body.isPaid

theorem zero_le_excess (phrase : Phrase) : 0 ≤ phrase.excess false := by
  induction phrase with
  | empty | token | oneOf | star => exact Int.le_refl 0
  | rule name =>
      have hname : 0 ≤ name.excess false := by cases name <;> decide
      exact Int.add_nonneg hname Int.one_nonneg
  | seq first second ih ih' => exact Int.add_nonneg ih ih'
  | alt left right | fork _ _ left right => exact Int.le_max_left _ _
  | opt body => exact Int.le_max_left _ _

/-- A choice of nothing costs nothing where it is possible. -/
theorem zero_le_excess_of_nullable {phrase : Phrase} {certain : Bool}
    (hfail : phrase.mayFail = true) (hnullable : certain = true → phrase.isNullable = true) :
    0 ≤ phrase.excess certain := by
  cases certain with
  | false => exact phrase.zero_le_excess
  | true =>
      have hnullable := hnullable rfl
      cases phrase with
      | token | oneOf => exact absurd hnullable Bool.false_ne_true
      | empty | rule | seq | star => exact absurd hfail Bool.false_ne_true
      | opt body => exact Int.le_max_left _ _
      | alt left right | fork _ _ left right =>
          rw [isNullable] at hnullable
          simp only [excess, hnullable]
          exact Int.le_max_left _ _

theorem excess_of_branch {phrase body : Phrase} (hmem : body ∈ phrase.branches) (certain : Bool) :
    body.excess true ≤ phrase.excess certain := by
  have hchoice {left right : Phrase} (hmem : body ∈ [left, right]) (lost : Bool) :
      body.excess true ≤
        if lost then max (left.excess true) (right.excess true)
        else max 0 (max (left.excess true) (right.excess true)) := by
    have htaken : body.excess true ≤ max (left.excess true) (right.excess true) := by
      rcases List.mem_cons.1 hmem with rfl | hmem
      · exact Int.le_max_left _ _
      · exact List.mem_singleton.1 hmem ▸ Int.le_max_right _ _
    split
    · exact htaken
    · exact Int.le_trans htaken (Int.le_max_right _ _)
  cases phrase with
  | alt left right | fork _ _ left right => exact hchoice hmem _
  | opt inner => exact List.mem_singleton.1 hmem ▸ Int.le_max_right _ _
  | _ => exact absurd hmem List.not_mem_nil

theorem is_paid_of_branch {phrase body : Phrase} (hmem : body ∈ phrase.branches)
    (h : phrase.isPaid = true) : body.isPaid = true :=
  of_branch (·.isPaid = true) (fun _ _ => Bool.and_eq_true_iff.1)
    (fun _ _ _ _ => Bool.and_eq_true_iff.1) (fun _ h => h) hmem h

end Phrase

namespace Rule

theorem excess_body_le (certain : Bool) (rule : Rule) :
    rule.body.excess certain ≤ rule.excess certain := by
  cases certain <;> cases rule <;> decide

theorem is_paid_body (rule : Rule) : rule.body.isPaid = true := by
  cases rule <;> decide

/-- Declarations, functions and statements are asked for only where the token in view fits. -/
theorem not_uncertain {name rule : Rule} {certain : Bool}
    (h : name ∈ rule.body.uncertain certain) :
    name ∉ [.stringDecl, .varDecl, .function, .statement] := by
  revert name
  cases certain <;> cases rule <;> decide

end Rule

namespace Tree

/-- How many nodes there are in a row of trees beyond those that its tokens pay for. -/
def unpaid (above : List Rule) (trees : List Tree) : Int :=
  (occurrencesAll above trees).countP (·.tree.isNode) -
    Rule.nodesPerToken * (passedAll trees).length

@[simp] theorem unpaid_append (above : List Rule) (front back : List Tree) :
    unpaid above (front ++ back) = unpaid above front + unpaid above back := by
  simp only [unpaid, occurrences_all_append, passed_all_append, List.countP_append,
    List.length_append, Int.natCast_add, Rule.nodesPerToken]
  omega

theorem unpaid_leaf_le (above : List Rule) {tree : Tree} (h : tree.isNode = false) :
    unpaid above [tree] ≤ 0 := by
  have hnone : (occurrencesAll above [tree]).countP (·.tree.isNode) = 0 := by
    rw [occurrences_all_singleton, occurrences_of_leaf h]
    simp [h]
  simp only [unpaid, hnone, Rule.nodesPerToken]
  omega

/-- A token that is expected pays where the mark at the end is not what is expected. -/
theorem unpaid_token (above : List Rule) {token : Token} (h : token.kind ≠ .eof) :
    unpaid above [.leaf token] = -Rule.nodesPerToken := by
  simp [unpaid, occurrencesAll, occurrences, passedAll, leavesAll, leaves, passed?, h, isNode]

theorem unpaid_leaves_le (above : List Rule) {trees : List Tree}
    (h : ∀ tree ∈ trees, tree.isNode = false) : unpaid above trees ≤ 0 := by
  induction trees with
  | nil => exact Int.le_refl 0
  | cons tree trees ih =>
      rw [List.forall_mem_cons] at h
      have happend := unpaid_append above [tree] trees
      rw [List.singleton_append] at happend
      rw [happend]
      exact Int.add_nonpos (unpaid_leaf_le above h.1) (ih h.2)

theorem unpaid_node (above : List Rule) (rule : Rule) (start : Token) (stop : Option Token)
    (children : List Tree) :
    unpaid above [.node rule start stop children] = unpaid (rule :: above) children + 1 := by
  rw [unpaid, occurrences_all_singleton, occurrences, List.countP_cons_of_pos rfl, passed_all_node,
    unpaid]
  omega

/-- Trees that have more paid for than they have nodes have a token. -/
theorem passed_ne_nil_of_unpaid {above : List Rule} {trees : List Tree}
    (h : unpaid above trees < 0) : passedAll trees ≠ [] := by
  intro hnone
  rw [unpaid, hnone] at h
  simp only [List.length_nil] at h
  omega

end Tree

/-- `Paced phrase trees` says that the trees can come from reading the phrase, whatever was missing,
and that every round of a repetition has left a token of the text. -/
inductive Paced : Phrase → List Tree → Prop where
  | nothing (phrase : Phrase) : Paced phrase []
  | leaf {phrase : Phrase} {tree : Tree} {trees : List Tree} :
      tree.isNode = false → Paced phrase trees → Paced phrase (tree :: trees)
  | rule {name : Rule} {children passed : List Tree} (start : Token) (stop : Option Token) :
      Paced name.body children → (∀ tree ∈ passed, tree.isNode = false) →
      Paced (.rule name) [.node name start stop (children ++ passed)]
  | seq {first second : Phrase} {front back : List Tree} :
      Paced first front → Paced second back → Paced (.seq first second) (front ++ back)
  | branch {phrase body : Phrase} {trees : List Tree} :
      body ∈ phrase.branches → Paced body trees → Paced phrase trees
  | round {body : Phrase} {front back : List Tree} :
      Paced body front → Tree.passedAll front ≠ [] → Paced (.star body) back →
      Paced (.star body) (front ++ back)

namespace Attempt

variable {certain whole : Bool} {phrase : Phrase} {trees : List Tree}

/-- The tokens passed for a phrase pay for its nodes, up to its excess. -/
theorem unpaid_le (h : Attempt certain phrase whole trees) (hpaid : phrase.isPaid = true)
    (above : List Rule) : Tree.unpaid above trees ≤ phrase.excess certain := by
  induction h generalizing above with
  | empty | starNil => exact Int.le_refl 0
  | @leaf certain phrase token hkind =>
      have hleaf : Tree.unpaid above [.leaf token] ≤ 0 := Tree.unpaid_leaf_le above rfl
      cases phrase with
      | token kind =>
          obtain rfl := List.mem_singleton.1 hkind
          rw [Phrase.excess]
          split
          · next hcertain =>
            rw [Bool.and_eq_true, bne_iff_ne] at hcertain
            exact Int.le_of_eq (Tree.unpaid_token above hcertain.2)
          · exact hleaf
      | oneOf kinds =>
          rw [Phrase.excess]
          split
          · next hcertain =>
            refine Int.le_of_eq (Tree.unpaid_token above fun heof => ?_)
            have hmem : Kind.eof ∈ kinds := heof ▸ hkind
            simp [hmem] at hcertain
          · exact hleaf
      | _ => exact absurd hkind List.not_mem_nil
  | absent _ hfail hnullable => exact Phrase.zero_le_excess_of_nullable hfail hnullable
  | @extra _ _ _ tree trees hleaf _ ih =>
      have hrest := ih hpaid above
      have hextra := Tree.unpaid_leaf_le above hleaf
      have happend := Tree.unpaid_append above [tree] trees
      rw [List.singleton_append] at happend
      omega
  | @rule certain _ name children passed start stop _ hpassed ih =>
      have hbody := ih name.is_paid_body (name :: above)
      have hleaves := Tree.unpaid_leaves_le (name :: above) hpassed
      have hexcess := name.excess_body_le certain
      rw [Tree.unpaid_node, Tree.unpaid_append, Phrase.excess]
      omega
  | seq _ _ ih ih' =>
      rw [Phrase.isPaid, Bool.and_eq_true] at hpaid
      rw [Tree.unpaid_append, Phrase.excess]
      exact Int.add_le_add (ih hpaid.1 above) (ih' hpaid.2 above)
  | @seqStuck _ _ second _ _ ih =>
      rw [Phrase.isPaid, Bool.and_eq_true] at hpaid
      have hfront := ih hpaid.1 above
      have hsecond := second.zero_le_excess
      rw [Phrase.excess]
      omega
  | branch hmem _ ih =>
      exact Int.le_trans (ih (Phrase.is_paid_of_branch hmem hpaid) above)
        (Phrase.excess_of_branch hmem _)
  | starCons _ _ ih ih' =>
      have hbody := hpaid
      rw [Phrase.isPaid, Bool.and_eq_true, decide_eq_true_eq] at hbody
      have hfront := ih hbody.2 above
      have hback := ih' hpaid above
      rw [Tree.unpaid_append]
      rw [Phrase.excess] at hback ⊢
      omega
  | starStuck _ ih =>
      rw [Phrase.isPaid, Bool.and_eq_true, decide_eq_true_eq] at hpaid
      have hfront := ih hpaid.2 above
      rw [Phrase.excess]
      omega

/-- What has less than nothing in excess has a token. -/
theorem passed_ne_nil (h : Attempt certain phrase whole trees) (hpaid : phrase.isPaid = true)
    (hexcess : phrase.excess certain < 0) : Tree.passedAll trees ≠ [] :=
  Tree.passed_ne_nil_of_unpaid (Int.lt_of_le_of_lt (h.unpaid_le hpaid []) hexcess)

/-- Every round of a repetition passes a token. -/
theorem paced (h : Attempt certain phrase whole trees) (hpaid : phrase.isPaid = true) :
    Paced phrase trees := by
  induction h with
  | empty | absent | starNil => exact .nothing _
  | leaf => exact .leaf rfl (.nothing _)
  | extra hleaf _ ih => exact .leaf hleaf (ih hpaid)
  | rule start stop _ hpassed ih => exact .rule start stop (ih (Rule.is_paid_body _)) hpassed
  | seq _ _ ih ih' =>
      rw [Phrase.isPaid, Bool.and_eq_true] at hpaid
      exact .seq (ih hpaid.1) (ih' hpaid.2)
  | @seqStuck _ _ second front _ ih =>
      rw [Phrase.isPaid, Bool.and_eq_true] at hpaid
      rw [← List.append_nil front]
      exact .seq (ih hpaid.1) (.nothing second)
  | branch hmem _ ih => exact .branch hmem (ih (Phrase.is_paid_of_branch hmem hpaid))
  | starCons hfront _ ih ih' =>
      have hbody := hpaid
      rw [Phrase.isPaid, Bool.and_eq_true, decide_eq_true_eq] at hbody
      exact .round (ih hbody.2) (hfront.passed_ne_nil hbody.2 hbody.1) (ih' hpaid)
  | @starStuck _ body front hfront ih =>
      rw [Phrase.isPaid, Bool.and_eq_true, decide_eq_true_eq] at hpaid
      rw [← List.append_nil front]
      exact .round (ih hpaid.2) (hfront.passed_ne_nil hpaid.2 hpaid.1) (.nothing _)

end Attempt

namespace Parse

variable (entry : Rule) (source : String)

/-- Every round of a repetition passes a token of the text. -/
theorem paced_of_source : Paced (.rule entry) [(ofSource entry source).tree] :=
  (attempt_of_source entry source).paced rfl

/-- The declarations, functions and statements inside a tree have tokens of the text. -/
theorem passed_of_node {node : Occurrence}
    (hmem : node ∈ (ofSource entry source).tree.occurrences []) (habove : node.above ≠ [])
    {name : Rule} (hrule : node.tree.rule? = some name)
    (hname : name ∈ [Rule.stringDecl, .varDecl, .function, .statement]) :
    Tree.passedAll [node.tree] ≠ [] := by
  have hgrammar (certain : Bool) (rule : Rule) : ∀ name ∈ rule.body.uncertain certain,
      name ∉ [.stringDecl, .varDecl, .function, .statement] := fun _ => Rule.not_uncertain
  have hexcess : ∀ name ∈ [Rule.stringDecl, .varDecl, .function, .statement],
      (Phrase.rule name).excess true < 0 := by
    decide
  obtain ⟨_, _, _, children, passed, htree, hbody, hpassed⟩ :=
    (attempt_of_source entry source).is_attempt
  rw [htree, Tree.occurrences, List.mem_cons, Tree.occurrences_all_append, List.mem_append] at hmem
  rcases hmem with rfl | hmem | hmem
  · exact absurd rfl habove
  · obtain ⟨certain, hcertain, hnode⟩ := hbody.of_node hgrammar (hgrammar false entry) hmem hrule
    obtain rfl := hcertain.resolve_right (not_not_intro hname)
    obtain ⟨whole, start, stop, children, passed, heq, hinner, hleaves⟩ := hnode
    rw [heq]
    exact (Attempt.rule start stop hinner hleaves).passed_ne_nil rfl (hexcess name hname)
  · exact absurd (hrule.symm.trans (Tree.rule_of_leaves hpassed hmem)) (Option.some_ne_none _)

/-- The tokens at the leaves are tokens of the text, from the first on. -/
theorem passed_prefix_of_source :
    Tree.passedAll [(ofSource entry source).tree] <+: (Lexing.ofSource source).tokens := by
  have htrail := entry.parse_trail (depthBound (Lexing.ofSource source).tokens.length) []
    (.start (Lexing.ofSource source).tokens (Lexing.ofSource source).eof)
  exact ⟨_, (htrail.ahead_eq (State.marked_start source)).symm⟩

/-- A tree has no more nodes than the tokens of the text pay for, and a few. -/
theorem nodes_le : ((ofSource entry source).tree.occurrences []).countP (·.tree.isNode) ≤
    13 * (Lexing.ofSource source).tokens.length + 11 := by
  have hunpaid := (attempt_of_source entry source).unpaid_le rfl []
  have hexcess := entry.excess_le false
  have htokens := (passed_prefix_of_source entry source).length_le
  rw [Tree.unpaid, Tree.occurrences_all_singleton, Rule.nodesPerToken, Phrase.excess] at hunpaid
  omega

end Parse

end Little
