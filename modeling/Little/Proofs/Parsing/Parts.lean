import Little.Proofs.Grammar.Nodes
import Little.Proofs.Parsing.Attempt

/-!
# Which parts the nodes of a parse have

However broken a text is, some parts of its tree can be relied on. Every node comes from an attempt
at its own rule (`Attempt.of_node`), which is certain unless its rule is `uncertain` where it is
asked for. A node has all parts that are `sure`: those in front of which nothing can be given up
(`Attempt.exists_of_sure`). And no rule has more parts of a kind than its right-hand side has room
for (`Attempt.length_nodes_le`).
-/

namespace Little

namespace Phrase

/-- The rules that a phrase asks for where the token in view need not fit. -/
def uncertain : Bool → Phrase → List Rule
  | _, .empty | _, .token _ | _, .oneOf _ => []
  | certain, .rule name => if certain then [] else [name]
  | certain, .seq first second =>
    first.uncertain (certain && !first.isNullable) ++ second.uncertain false
  | _, .alt left right | _, .fork _ _ left right => left.uncertain true ++ right.uncertain true
  | _, .opt body | _, .star body => body.uncertain true

/-- Whether a phrase is always read to its end. -/
def isSure : Bool → Phrase → Bool
  | _, .empty | _, .rule _ => true
  | certain, .token _ | certain, .oneOf _ => certain
  | certain, .seq first second =>
    first.isSure (certain && !first.isNullable) && second.isSure false
  | _, .alt .. | _, .fork .. | _, .opt _ | _, .star _ => false

/-- The rules that always have a node among what is read for a phrase. -/
def sure : Bool → Phrase → List Rule
  | _, .rule name => [name]
  | certain, .seq first second =>
    first.sure (certain && !first.isNullable) ++
      if first.isSure (certain && !first.isNullable) then second.sure false else []
  | _, _ => []

/-- Behind a choice the token in view fits, whether or not it did before. -/
theorem uncertain_of_branch {phrase body : Phrase} (hmem : body ∈ phrase.branches)
    {certain : Bool} {holds : Rule → Prop} (h : ∀ name ∈ phrase.uncertain certain, holds name) :
    ∀ name ∈ body.uncertain true, holds name := by
  refine of_branch (fun phrase => ∀ name ∈ phrase.uncertain true, holds name)
    (fun _ _ => List.forall_mem_append.1) (fun _ _ _ _ => List.forall_mem_append.1)
    (fun _ h => h) hmem ?_
  cases phrase with
  | alt | fork | opt => exact h
  | _ => exact absurd hmem List.not_mem_nil

theorem occurrences_of_branch {phrase body : Phrase} (hmem : body ∈ phrase.branches)
    (isPart : Phrase → Bool) : body.occurrences isPart ≤ phrase.occurrences isPart := by
  have hbound : ∀ bound, phrase.occurrences isPart ≤ bound → body.occurrences isPart ≤ bound :=
    fun bound => of_branch (·.occurrences isPart ≤ bound) (fun _ _ => Nat.max_le.1)
      (fun _ _ _ _ => Nat.max_le.1) (fun _ h => h) hmem
  exact hbound _ (Nat.le_refl _)

end Phrase

namespace Rule

/-- Declarations of strings and functions are asked for only where the token in view fits. -/
theorem certain_of_uncertain {name rule : Rule} {certain : Bool}
    (h : name ∈ rule.body.uncertain certain) : name ≠ .stringDecl ∧ name ≠ .function := by
  revert name
  cases certain <;> cases rule <;> decide

end Rule

section Attempts

variable {certain whole : Bool} {phrase : Phrase} {trees : List Tree}

/-- What is always read to its end was read to its end. -/
theorem Attempt.whole_eq_true (h : Attempt certain phrase whole trees)
    (hsure : phrase.isSure certain = true) : whole = true := by
  induction h with
  | empty | leaf | rule | starNil => rfl
  | @absent certain phrase whole hfail hnullable =>
      cases phrase with
      | token | oneOf => exact absurd (hnullable hsure) Bool.false_ne_true
      | empty | rule | seq | star => exact absurd hfail Bool.false_ne_true
      | alt | opt | fork => exact absurd hsure Bool.false_ne_true
  | extra _ _ ih => exact ih hsure
  | seq _ _ _ ih =>
      rw [Phrase.isSure, Bool.and_eq_true] at hsure
      exact ih hsure.2
  | seqStuck _ ih =>
      rw [Phrase.isSure, Bool.and_eq_true] at hsure
      exact ih hsure.1
  | @branch _ _ phrase _ _ hmem _ _ =>
      cases phrase with
      | alt | opt | fork => exact absurd hsure Bool.false_ne_true
      | empty | token | oneOf | rule | seq | star => exact absurd hmem List.not_mem_nil
  | starCons | starStuck => exact absurd hsure Bool.false_ne_true

/-- What is sure to be among the parts is among them. -/
theorem Attempt.exists_of_sure (h : Attempt certain phrase whole trees) {name : Rule}
    (hsure : name ∈ phrase.sure certain) : ∃ tree ∈ trees, tree.rule? = some name := by
  induction h with
  | empty | starNil | starCons | starStuck => exact absurd hsure List.not_mem_nil
  | @leaf _ phrase _ hkind =>
      cases phrase with
      | token | oneOf => exact absurd hsure List.not_mem_nil
      | _ => exact absurd hkind List.not_mem_nil
  | @absent _ phrase _ hfail _ =>
      cases phrase with
      | rule | seq => exact absurd hfail Bool.false_ne_true
      | _ => exact absurd hsure List.not_mem_nil
  | extra _ _ ih =>
      obtain ⟨tree, hmem, hrule⟩ := ih hsure
      exact ⟨tree, List.mem_cons_of_mem _ hmem, hrule⟩
  | rule start stop _ _ _ =>
      obtain rfl := List.mem_singleton.1 hsure
      exact ⟨_, List.mem_singleton_self _, rfl⟩
  | @seq _ _ _ second front back _ _ ih ih' =>
      rw [Phrase.sure, List.mem_append] at hsure
      have hback : name ∈ second.sure false → ∃ tree ∈ front ++ back, tree.rule? = some name := by
        intro hsecond
        obtain ⟨tree, hmem, hrule⟩ := ih' hsecond
        exact ⟨tree, List.mem_append_right _ hmem, hrule⟩
      rcases hsure with hfirst | hsecond
      · obtain ⟨tree, hmem, hrule⟩ := ih hfirst
        exact ⟨tree, List.mem_append_left _ hmem, hrule⟩
      · split at hsecond
        · exact hback hsecond
        · exact absurd hsecond List.not_mem_nil
  | seqStuck hfront ih =>
      rw [Phrase.sure, List.mem_append] at hsure
      rcases hsure with hfirst | hsecond
      · exact ih hfirst
      · split at hsecond
        · next hwhole => exact absurd (hfront.whole_eq_true hwhole) Bool.false_ne_true
        · exact absurd hsecond List.not_mem_nil
  | @branch _ _ phrase _ _ hmem _ _ =>
      cases phrase with
      | alt | opt | fork => exact absurd hsure List.not_mem_nil
      | empty | token | oneOf | rule | seq | star => exact absurd hmem List.not_mem_nil

/-- A node that an attempt at a rule leaves: what was read of the right-hand side, and the leaves
passed in giving up the rest. -/
def Tree.IsAttempt (certain : Bool) (name : Rule) (tree : Tree) : Prop :=
  ∃ whole start stop children passed, tree = .node name start stop (children ++ passed) ∧
    Attempt certain name.body whole children ∧ ∀ leaf ∈ passed, leaf.isNode = false

/-- What is read for a rule is one node. -/
theorem Attempt.is_attempt {name : Rule} {tree : Tree}
    (h : Attempt certain (.rule name) whole [tree]) : tree.IsAttempt certain name := by
  generalize htrees : [tree] = trees at h
  cases h with
  | leaf _ _ hkind => exact absurd hkind List.not_mem_nil
  | absent _ hfail => exact absurd hfail Bool.false_ne_true
  | extra _ hrest =>
      obtain ⟨-, rfl⟩ := List.cons.inj htrees
      obtain ⟨_, hmem, -⟩ := hrest.exists_of_sure (List.mem_singleton_self name)
      exact absurd hmem List.not_mem_nil
  | rule start stop hbody hpassed =>
      exact ⟨_, start, stop, _, _, List.singleton_inj.1 htrees, hbody, hpassed⟩
  | branch hmem _ => exact absurd hmem List.not_mem_nil

/-- Every node comes from an attempt at its rule, a certain one where its rule is asked for with
certainty only. -/
theorem Attempt.of_node {isFree : Rule → Prop}
    (hgrammar : ∀ (certain : Bool) (rule : Rule), ∀ name ∈ rule.body.uncertain certain,
      isFree name)
    (h : Attempt certain phrase whole trees)
    (hphrase : ∀ name ∈ phrase.uncertain certain, isFree name)
    {above : List Rule} {node : Occurrence} {name : Rule}
    (hmem : node ∈ Tree.occurrencesAll above trees) (hname : node.tree.rule? = some name) :
    ∃ certain, (certain = true ∨ isFree name) ∧ node.tree.IsAttempt certain name := by
  induction h generalizing above with
  | empty | absent | starNil => exact absurd hmem List.not_mem_nil
  | leaf =>
      obtain rfl := List.mem_singleton.1 hmem
      exact absurd hname.symm (Option.some_ne_none _)
  | extra hleaf _ ih =>
      rw [Tree.occurrencesAll, Tree.occurrences_of_leaf hleaf, List.singleton_append,
        List.mem_cons] at hmem
      rcases hmem with rfl | hmem
      · exact absurd (hname.symm.trans (Tree.rule_of_leaf hleaf)) (Option.some_ne_none _)
      · exact ih hphrase hmem
  | @rule certain whole rule children passed start stop hbody hpassed ih =>
      simp only [Tree.occurrencesAll, Tree.occurrences, List.append_nil, List.mem_cons,
        Tree.occurrences_all_append, List.mem_append] at hmem
      rcases hmem with rfl | hmem | hmem
      · obtain rfl : rule = name := Option.some.inj hname
        refine ⟨certain, ?_, _, start, stop, _, _, rfl, hbody, hpassed⟩
        cases certain with
        | true => exact .inl rfl
        | false => exact .inr (hphrase rule (List.mem_singleton_self _))
      · exact ih (hgrammar certain rule) hmem
      · -- what was passed in giving up the rule are leaves
        exact absurd (hname.symm.trans (Tree.rule_of_leaves hpassed hmem)) (Option.some_ne_none _)
  | seq _ _ ih ih' =>
      rw [Phrase.uncertain, List.forall_mem_append] at hphrase
      rw [Tree.occurrences_all_append, List.mem_append] at hmem
      exact hmem.elim (ih hphrase.1) (ih' hphrase.2)
  | seqStuck _ ih =>
      rw [Phrase.uncertain, List.forall_mem_append] at hphrase
      exact ih hphrase.1 hmem
  | branch hbranch _ ih =>
      exact ih (Phrase.uncertain_of_branch hbranch hphrase) hmem
  | starCons _ _ ih ih' =>
      rw [Tree.occurrences_all_append, List.mem_append] at hmem
      exact hmem.elim (ih hphrase) (ih' (by simpa [Phrase.uncertain] using hphrase))
  | starStuck _ ih => exact ih hphrase hmem

/-- A node has the parts that are sure. -/
theorem Tree.IsAttempt.child_of_ne_none {tree : Tree} {name part : Rule}
    (h : tree.IsAttempt certain name) (hsure : part ∈ name.body.sure certain) :
    tree.childOf? part ≠ none := by
  obtain ⟨_, _, _, children, passed, rfl, hbody, -⟩ := h
  obtain ⟨child, hmem, hrule⟩ := hbody.exists_of_sure hsure
  intro hnone
  have hother := List.find?_eq_none.1 hnone child (List.mem_append_left _ hmem)
  exact hother (by rw [hrule]; exact beq_self_eq_true _)

/-- No more nodes of a rule come from a phrase than it has room for, where the rule is not
mentioned deeper in the grammar. -/
theorem Attempt.length_nodes_le {part : Rule} {isGood : Rule → Bool}
    (hgrammar : ∀ rule : Rule, isGood rule = true →
      rule.body.mentionsOnly isGood = true ∧ rule.body.occurrences (· = .rule part) = 0)
    (h : Attempt certain phrase whole trees) (hgood : phrase.mentionsOnly isGood = true)
    (hfew : phrase.occurrences (· = .rule part) < 2) (above : List Rule) :
    (Tree.nodesOf part above trees).length ≤ phrase.occurrences (· = .rule part) := by
  induction h generalizing above with
  | empty | absent | starNil => exact Nat.zero_le _
  | leaf => exact Nat.zero_le _
  | extra hleaf _ ih =>
      rw [Tree.nodes_of_cons, Tree.nodes_of_leaf hleaf]
      exact ih hgood hfew above
  | @rule _ _ name children passed start stop _ hpassed ih =>
      obtain ⟨hbody, hnone⟩ := hgrammar name hgood
      have hinside := ih hbody (by rw [hnone]; decide) (name :: above)
      rw [hnone, Nat.le_zero, List.length_eq_zero_iff] at hinside
      rw [Tree.nodes_of_node, Tree.nodes_of_passed hpassed, hinside, Phrase.occurrences]
      by_cases hname : name = part
      · simp [hname]
      · simp [hname]
  | seq _ _ ih ih' =>
      rw [Phrase.mentionsOnly, Bool.and_eq_true] at hgood
      rw [Phrase.occurrences] at hfew ⊢
      have hfront := ih hgood.1 (by omega) above
      have hback := ih' hgood.2 (by omega) above
      rw [Tree.nodes_of_append, List.length_append]
      omega
  | seqStuck _ ih =>
      rw [Phrase.mentionsOnly, Bool.and_eq_true] at hgood
      rw [Phrase.occurrences] at hfew ⊢
      have hfront := ih hgood.1 (by omega) above
      omega
  | branch hmem _ ih =>
      have hle := Phrase.occurrences_of_branch hmem (· = .rule part)
      exact Nat.le_trans
        (ih (Phrase.mentions_only_of_branch hmem hgood) (Nat.lt_of_le_of_lt hle hfew) above) hle
  | starCons _ _ ih ih' =>
      have hnone := hfew
      rw [Phrase.occurrences] at hnone
      have hfront := ih hgood (by omega) above
      have hback := ih' hgood hfew above
      rw [Tree.nodes_of_append, List.length_append]
      rw [Phrase.occurrences] at hback ⊢
      omega
  | starStuck _ ih =>
      rw [Phrase.occurrences] at hfew ⊢
      have hfront := ih hgood (by omega) above
      omega

/-- The nodes of such a rule all stand at the top. -/
theorem Attempt.nodes_eq {part : Rule} {isGood : Rule → Bool}
    (hgrammar : ∀ rule : Rule, isGood rule = true →
      rule.body.mentionsOnly isGood = true ∧ rule.body.occurrences (· = .rule part) = 0)
    (h : Attempt certain phrase whole trees) (hgood : phrase.mentionsOnly isGood = true)
    (above : List Rule) :
    Tree.nodesOf part above trees =
      (trees.filter (·.rule? == some part)).map (Occurrence.mk above) := by
  induction h generalizing above with
  | empty | absent | starNil => rfl
  | leaf => rfl
  | @extra _ _ _ tree _ hleaf _ ih =>
      rw [Tree.nodes_of_cons, Tree.nodes_of_leaf hleaf, List.filter_cons, Tree.rule_of_leaf hleaf]
      exact ih hgood above
  | @rule _ _ name children passed start stop hbody hpassed _ =>
      obtain ⟨hinner, hnone⟩ := hgrammar name hgood
      have hinside := hbody.length_nodes_le hgrammar hinner (by rw [hnone]; decide) (name :: above)
      rw [hnone, Nat.le_zero, List.length_eq_zero_iff] at hinside
      rw [Tree.nodes_of_node, Tree.nodes_of_passed hpassed, hinside, List.filter_cons]
      by_cases hname : name = part
      · simp [hname, Tree.rule?]
      · simp [hname, Tree.rule?]
  | seq _ _ ih ih' =>
      rw [Phrase.mentionsOnly, Bool.and_eq_true] at hgood
      rw [Tree.nodes_of_append, ih hgood.1, ih' hgood.2, List.filter_append, List.map_append]
  | seqStuck _ ih =>
      rw [Phrase.mentionsOnly, Bool.and_eq_true] at hgood
      exact ih hgood.1 above
  | branch hmem _ ih => exact ih (Phrase.mentions_only_of_branch hmem hgood) above
  | starCons _ _ ih ih' =>
      rw [Tree.nodes_of_append, ih hgood, ih' hgood, List.filter_append, List.map_append]
  | starStuck _ ih => exact ih hgood above

end Attempts

end Little
