import Mathlib.Data.List.Chain
import Little.Proofs.Parsing.Attempt
import Little.Proofs.Scope.Balance
import Little.Proofs.Scope.Underway

/-!
# Which statements are covered by a block

Statements in an `IF`, an `ELSE` or a `WHILE` have no block of their own. The builder asks all rules
above them whether they stand in one. Asking the one right above them gives the same, and so does
counting how many `IF`s, `ELSE`s and `WHILE`s have been entered and not left. For what stands right
above statements is one of these or the body of a function, and functions stand in none
(`in_control_eq`); this does not depend on what is wrong with a text. `blocks_decided_alike` puts
the ways to decide next to each other, and says that a builder that decides in one of the other ways
does the same.
-/

namespace Little

theorem Phrase.mentions_only_mono {isGood isFine : Rule → Bool}
    (h : ∀ rule, isGood rule = true → isFine rule = true) {phrase : Phrase}
    (hphrase : phrase.mentionsOnly isGood = true) : phrase.mentionsOnly isFine = true := by
  induction phrase with
  | empty | token | oneOf => rfl
  | rule name => exact h name hphrase
  | seq first second ih ih' | alt first second ih ih' | fork _ _ first second ih ih' =>
      rw [mentionsOnly, Bool.and_eq_true] at hphrase ⊢
      exact ⟨ih hphrase.1, ih' hphrase.2⟩
  | opt body ih | star body ih => exact ih hphrase

namespace Rule

/-- Whether a rule is asked for by the right-hand side of another one. -/
def StandsIn (part whole : Rule) : Prop := whole.body.mentionsOnly (· != part) = false

/-- A right-hand side asks for no rule but those that it mentions. -/
theorem StandsIn.of_mentions_only {part whole : Rule} (h : part.StandsIn whole)
    {isGood : Rule → Bool} (hwhole : whole.body.mentionsOnly isGood = true) :
    isGood part = true := by
  by_contra hpart
  have hmentions : whole.body.mentionsOnly (· != part) = true := by
    refine Phrase.mentions_only_mono (fun rule hrule => bne_iff_ne.2 ?_) hwhole
    rintro rfl
    exact hpart hrule
  exact Bool.false_ne_true (h.symm.trans hmentions)

/-- Statements stand in blocks and in bodies of functions. -/
theorem statements_stand_in {whole : Rule} (h : StandsIn .statements whole) :
    whole.isControl = true ∨ whole = .functionBody := by
  revert h
  unfold StandsIn
  cases whole <;> decide

/-- Bodies of functions, and what these stand in, stand in no rule without functions. -/
theorem StandsIn.outer {part whole : Rule} (h : part.StandsIn whole)
    (hpart : part = .functionBody ∨ part.isInner = false) : whole.isInner = false := by
  have hinner : ∀ rule : Rule, rule.isInner = true →
      rule.body.mentionsOnly (fun part => part.isInner && part != .functionBody) = true := by
    intro rule
    cases rule <;> decide
  by_contra hwhole
  rw [Bool.not_eq_false] at hwhole
  have hgood := h.of_mentions_only (hinner whole hwhole)
  rw [Bool.and_eq_true, bne_iff_ne] at hgood
  rcases hpart with hbody | houter
  · exact hgood.2 hbody
  · exact Bool.false_ne_true (houter.symm.trans hgood.1)

/-- Rules in which functions can stand are no blocks. -/
theorem is_control_of_outer {rule : Rule} (h : rule.isInner = false) : rule.isControl = false := by
  revert h
  cases rule <;> decide

/-- No block stands above a body of a function. -/
theorem outer_above {name : Rule} {above : List Rule} (h : (name :: above).IsChain StandsIn)
    (hname : name = .functionBody ∨ name.isInner = false) :
    above.any Rule.isControl = false := by
  induction above generalizing name with
  | nil => rfl
  | cons whole above ih =>
      rw [List.isChain_cons_cons] at h
      have houter := h.1.outer hname
      rw [List.any_cons, is_control_of_outer houter, ih h.2 (.inr houter)]
      rfl

end Rule

/-- Wherever a node is, each rule on the way to it stands in the one above. -/
theorem Attempt.chain_of_node {certain whole : Bool} {phrase : Phrase} {trees : List Tree}
    (h : Attempt certain phrase whole trees) {above : List Rule}
    (habove : ∀ part, phrase.mentionsOnly (· != part) = false →
      (part :: above).IsChain Rule.StandsIn)
    {node : Occurrence} {name : Rule} (hmem : node ∈ Tree.occurrencesAll above trees)
    (hname : node.tree.rule? = some name) : (name :: node.above).IsChain Rule.StandsIn := by
  induction h generalizing above with
  | empty | absent | starNil => exact absurd hmem List.not_mem_nil
  | leaf =>
      obtain rfl := List.mem_singleton.1 hmem
      exact absurd hname.symm (Option.some_ne_none _)
  | @extra _ _ _ tree _ hleaf _ ih =>
      rw [Tree.occurrencesAll, Tree.occurrences_of_leaf hleaf] at hmem
      rcases List.mem_cons.1 hmem with rfl | hmem
      · rw [Tree.rule_of_leaf hleaf] at hname
        exact absurd hname.symm (Option.some_ne_none _)
      · exact ih habove hmem
  | @rule _ _ rule children passed start stop _ hpassed ih =>
      have hself : (rule :: above).IsChain Rule.StandsIn :=
        habove rule (by simp [Phrase.mentionsOnly])
      simp only [Tree.occurrencesAll, Tree.occurrences, List.append_nil, List.mem_cons,
        Tree.occurrences_all_append, List.mem_append] at hmem
      rcases hmem with rfl | hmem | hmem
      · obtain rfl : rule = name := Option.some.inj hname
        exact hself
      · -- what its right-hand side asks for stands in the rule
        exact ih (fun part hpart => List.isChain_cons_cons.2 ⟨hpart, hself⟩) hmem
      · rw [Tree.rule_of_leaves hpassed hmem] at hname
        exact absurd hname.symm (Option.some_ne_none _)
  | seq _ _ ih ih' =>
      rw [Tree.occurrences_all_append, List.mem_append] at hmem
      rcases hmem with hmem | hmem
      · exact ih (fun part hpart => habove part (by rw [Phrase.mentionsOnly, hpart]; rfl)) hmem
      · refine ih' (fun part hpart => habove part ?_) hmem
        rw [Phrase.mentionsOnly, hpart, Bool.and_false]
  | seqStuck _ ih =>
      exact ih (fun part hpart => habove part (by rw [Phrase.mentionsOnly, hpart]; rfl)) hmem
  | branch hbody _ ih =>
      refine ih (fun part hpart => habove part ?_) hmem
      rw [← Bool.not_eq_true] at hpart ⊢
      exact fun hphrase => hpart (Phrase.mentions_only_of_branch hbody hphrase)
  | starCons _ _ ih ih' =>
      rw [Tree.occurrences_all_append, List.mem_append] at hmem
      rcases hmem with hmem | hmem
      · exact ih habove hmem
      · exact ih' habove hmem
  | starStuck _ ih => exact ih habove hmem

namespace Occurrence

/-- Whether the rule right above opens a block of its own. -/
def underControl (node : Occurrence) : Bool := node.above.head?.any Rule.isControl

end Occurrence

/-- Whatever is wrong with a text, statements stand in a block only if they stand right in one. -/
theorem in_control_eq {entry : Rule} {source : String} {node : Occurrence}
    (hmem : node ∈ (Parse.ofSource entry source).tree.occurrences [])
    (hrule : node.tree.rule? = some .statements) : node.inControl = node.underControl := by
  have hchain : (Rule.statements :: node.above).IsChain Rule.StandsIn := by
    have hattempt := Parse.attempt_of_source entry source
    refine hattempt.chain_of_node (fun part _ => List.isChain_singleton part) ?_ hrule
    rwa [Tree.occurrences_all_singleton]
  unfold Occurrence.inControl Occurrence.underControl
  cases habove : node.above with
  | nil => rfl
  | cons whole above =>
      rw [habove, List.isChain_cons_cons] at hchain
      rw [List.any_cons, List.head?_cons, Option.any_some]
      rcases Rule.statements_stand_in hchain.1 with hcontrol | hbody
      · rw [hcontrol, Bool.true_or]
      · rw [Rule.outer_above hchain.2 (.inl hbody), Bool.or_false]

/-- Whether the rule right above the node of an event opens a block of its own. -/
def Event.underControl : Event → Bool
  | .enter node | .exit node => node.underControl
  | .leaf _ => false

namespace Builder

/-- Carries out an event, where it is given whether statements there are covered. -/
def stepIf (builder : Builder) (covered : Bool) : Event → Outcome
  | .enter node =>
    if node.tree.rule? = some .statements then
      .done (if covered then builder else builder.openBlock)
    else builder.enter node
  | .exit node =>
    if node.tree.rule? = some .statements then if covered then .done builder else builder.close
    else builder.exit node
  | .leaf _ => .done builder

/-- Carries out events up to the first that halts. A state is threaded through them, and decides
with each event whether statements there are covered. -/
def walkBy {α : Type} (advance : α → Event → α) (covers : α → Event → Bool) (state : α)
    (builder : Builder) : List Event → Outcome
  | [] => .done builder
  | event :: events =>
    (builder.stepIf (covers state event) event).andThen
      (walkBy advance covers (advance state event) · events)

/-- Carries out events, deciding by the rule right above a node. -/
def walkByParent (builder : Builder) (events : List Event) : Outcome :=
  builder.walkBy (fun _ _ => ()) (fun _ event => event.underControl) () events

/-- Carries out events, deciding by a count of the `IF`s, `ELSE`s and `WHILE`s that have been
entered and not left. -/
def walkByCount (builder : Builder) (events : List Event) : Outcome :=
  builder.walkBy Event.depth (fun depth _ => 0 < depth) 0 events

section Steps

variable {builder : Builder} {covered : Bool} {node : Occurrence}

/-- Statements open a block unless they are covered. -/
theorem enter_statements (hrule : node.tree.rule? = some .statements) :
    builder.enter node = .done (if node.inControl then builder else builder.openBlock) := by
  have hblock : node.hasBlock = !node.inControl := by rw [Occurrence.hasBlock, hrule]
  have hnone : node.tree.declarations = [] := by rw [Tree.declarations, hrule]
  rw [enter, hblock, hrule, hnone]
  cases node.inControl with
  | true => rfl
  | false => rfl

/-- Statements close a block unless they are covered. -/
theorem exit_statements (hrule : node.tree.rule? = some .statements) :
    builder.exit node = if node.inControl then .done builder else builder.close := by
  have hblock : node.hasBlock = !node.inControl := by rw [Occurrence.hasBlock, hrule]
  rw [exit, hblock, hrule]
  cases node.inControl with
  | true => rfl
  | false => rfl

/-- A step that was given the right answer is a step of the builder. -/
theorem step_if_eq {event : Event} (h : ∀ node, event.Meets node →
    node.tree.rule? = some .statements → covered = node.inControl) :
    builder.stepIf covered event = builder.step event := by
  cases event with
  | enter node =>
      rw [stepIf, step]
      split
      · next hrule => rw [enter_statements hrule, h node (.inl rfl) hrule]
      · rfl
  | exit node =>
      rw [stepIf, step]
      split
      · next hrule => rw [exit_statements hrule, h node (.inr rfl) hrule]
      · rfl
  | leaf => rfl

/-- A walk on which the right answer is given at all statements is a walk of the builder. -/
theorem walk_by_eq {α : Type} {advance : α → Event → α} {covers : α → Event → Bool} {state : α}
    {events : List Event}
    (h : ∀ before event after, events = before ++ event :: after → ∀ node, event.Meets node →
      node.tree.rule? = some .statements →
        covers (before.foldl advance state) event = node.inControl) :
    builder.walkBy advance covers state events = builder.walk events := by
  induction events generalizing builder state with
  | nil => rfl
  | cons event events ih =>
      have hstep : builder.stepIf (covers state event) event = builder.step event :=
        step_if_eq (h [] event events rfl)
      rw [walkBy, walk, hstep]
      refine congrArg _ (funext fun next => ih fun before other after hevents => ?_)
      exact h (event :: before) other after (by rw [hevents]; rfl)

end Steps

end Builder

/-- At statements that a walk meets, the pending nodes and their count say whether one of the rules
above is a block. -/
theorem Tree.in_control_iff_pending {tree : Tree} {before after : List Event} {event : Event}
    (h : tree.events = before ++ event :: after) {node : Occurrence} (hmeets : event.Meets node)
    (hrule : node.tree.rule? = some .statements) :
    (node.inControl = true ↔ ∃ control, Pending before control ∧ control.isControl = true) ∧
      (node.inControl = true ↔ 0 < before.foldl Event.depth 0) := by
  obtain ⟨inner, hrules, hpending, hdepth⟩ := Tree.underway h
  -- at their end the statements are pending themselves, but they are no block
  have hinner : inner.any Rule.isControl = node.inControl := by
    rw [List.append_nil] at hrules
    rcases hmeets with rfl | rfl
    · rw [← hrules]
      rfl
    · rw [← hrules, Event.rules, hrule]
      rfl
  rw [← hinner, hdepth, Nat.zero_add, List.countP_pos_iff, List.any_eq_true]
  refine ⟨⟨?_, ?_⟩, Iff.rfl⟩
  · rintro ⟨rule, hmem, hcontrol⟩
    obtain ⟨control, hopen, hname⟩ := (hpending rule).1 hmem
    exact ⟨control, hopen, by rw [Occurrence.isControl, hname]; exact hcontrol⟩
  · rintro ⟨control, hopen, hcontrol⟩
    obtain ⟨rule, hname, hrule⟩ := (Option.any_eq_true _ _).1 hcontrol
    exact ⟨rule, (hpending rule).2 ⟨control, hopen, hname⟩, hrule⟩

/-- The ways to decide whether statements have a block of their own, at the place where they stand
and in a walk that meets them. -/
structure Occurrence.DecidedAlike (node : Occurrence) (events : List Event) : Prop where
  /-- The rule right above decides like all rules above. -/
  parent : node.inControl = true ↔ ∃ rule, node.above.head? = some rule ∧ rule.isControl = true
  /-- The walk enters the statements and leaves them. -/
  met : .enter node ∈ events ∧ .exit node ∈ events
  /-- Both times a block that was entered and not left decides like the rules above. -/
  pending : ∀ before event after, events = before ++ event :: after → event.Meets node →
    (node.inControl = true ↔ ∃ control, Pending before control ∧ control.isControl = true)
  /-- Statements open a block exactly if they close one. -/
  enters : ∀ builder : Builder,
    builder.enter node = .done (if node.inControl then builder else builder.openBlock)
  exits : ∀ builder : Builder,
    builder.exit node = if node.inControl then .done builder else builder.close

/-- Whatever text is parsed by whatever rule, it makes no difference whether statements are taken to
have no block of their own because some rule above them is an `IF`, an `ELSE` or a `WHILE`, because
the one right above them is, or because such a node has been entered and not left. Builders that
decide by the rule right above or by a count of such nodes do the same, event by event. -/
theorem blocks_decided_alike (entry : Rule) (source : String) :
    (∀ node ∈ (Parse.ofSource entry source).tree.occurrences [],
      node.tree.rule? = some .statements →
        node.DecidedAlike (Parse.ofSource entry source).tree.events) ∧
    ∀ before after : List Event, (Parse.ofSource entry source).tree.events = before ++ after →
      Builder.start.walkByParent before = Builder.start.walk before ∧
        Builder.start.walkByCount before = Builder.start.walk before := by
  constructor
  · intro node hmem hrule
    refine ⟨?_, ?_, ?_, ?_, ?_⟩
    · rw [in_control_eq hmem hrule, Occurrence.underControl, Option.any_eq_true]
    · refine Tree.met_of_mem hmem (Bool.of_not_eq_false fun hleaf => ?_)
      exact absurd ((Tree.rule_of_leaf hleaf).symm.trans hrule) nofun
    · exact fun before event after h hmeets => (Tree.in_control_iff_pending h hmeets hrule).1
    · exact fun builder => Builder.enter_statements hrule
    · exact fun builder => Builder.exit_statements hrule
  · intro before after hevents
    constructor
    · refine Builder.walk_by_eq fun earlier event later hbefore node hmeets hrule => ?_
      have hevent : event ∈ (Parse.ofSource entry source).tree.events := by
        rw [hevents, hbefore]
        simp
      have hcontrol := in_control_eq (Tree.mem_of_meets hevent hmeets) hrule
      rcases hmeets with rfl | rfl
      · exact hcontrol.symm
      · exact hcontrol.symm
    · refine Builder.walk_by_eq fun earlier event later hbefore node hmeets hrule => ?_
      rw [hbefore, List.append_assoc] at hevents
      have hcount := (Tree.in_control_iff_pending hevents hmeets hrule).2
      rw [Bool.eq_iff_iff, hcount, decide_eq_true_eq]

end Little
