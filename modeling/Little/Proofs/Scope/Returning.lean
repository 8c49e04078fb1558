import Little.Proofs.Parsing.Attempt
import Little.Proofs.Scope.Walk

/-!
# Going back to the global scope

When a scope is closed the builder goes back to the global scope, not to the scope that is then the
innermost. `walk_back_alike` says that this makes no difference to anything a walk of a parsed tree
does, whatever is wrong with the text. For a declaration is never met between the end of one scope
and the beginning of the next, unless none is open: `Orderly` is this order of events, which follows
from what the grammar lets stand behind what (`Attempt.settled`), and `InStep.walk` is what it means
for the builder.
-/

namespace Little

namespace Builder

/-- The innermost open scope, or the global one if none is open. -/
def innermost (builder : Builder) : Handle := builder.opened.headD globalScope

/-- Closes the innermost scope and goes back to the one around it. -/
def closeBack (builder : Builder) : Outcome :=
  builder.close.andThen fun closed => .done { closed with current := closed.innermost }

/-- Carries out what is due after the parts of a node, going back to the scope around. -/
def exitBack (builder : Builder) (node : Occurrence) : Outcome :=
  if node.hasBlock || node.tree.rule? = some .functionBody then builder.closeBack
  else .done builder

/-- Carries out an event, going back to the scope around. -/
def stepBack (builder : Builder) : Event → Outcome
  | .enter node => builder.enter node
  | .exit node => builder.exitBack node
  | .leaf _ => .done builder

/-- Carries out events up to the first that halts, going back to the scope around. -/
def walkBack (builder : Builder) : List Event → Outcome
  | [] => .done builder
  | event :: events => (builder.stepBack event).andThen (·.walkBack events)

/-- Two builders that differ at most in the scope that declarations go to. -/
structure Alike (builder other : Builder) : Prop where
  table : builder.table = other.table
  nextBlock : builder.nextBlock = other.nextBlock
  opened : builder.opened = other.opened
  notices : builder.notices = other.notices

theorem Alike.refl (builder : Builder) : builder.Alike builder := ⟨rfl, rfl, rfl, rfl⟩

theorem Alike.eq {builder other : Builder} (h : builder.Alike other)
    (hcurrent : builder.current = other.current) : builder = other := by
  obtain ⟨htable, hnext, hopened, hnotices⟩ := h
  cases builder
  cases other
  simp_all

end Builder

/-- Two outcomes that differ at most in the scope that declarations go to. -/
structure Outcome.Alike (outcome other : Outcome) : Prop where
  halt : outcome.halt = other.halt
  builder : outcome.builder.Alike other.builder

namespace Occurrence

/-- Whether entering a node opens a scope. -/
def opens (node : Occurrence) : Bool := node.hasBlock || node.tree.rule? = some .function

/-- Whether leaving a node closes a scope. -/
def closes (node : Occurrence) : Bool := node.hasBlock || node.tree.rule? = some .functionBody

end Occurrence

/-- Whether the current scope is the innermost one after an event, where `settled` says whether it
was before. Where a scope is closed this is not certain. -/
def Event.settles (settled : Bool) : Event → Bool
  | .enter node => settled || node.opens
  | .exit node => settled && !node.closes
  | .leaf _ => settled

/-- Whether an event makes declarations. -/
def Event.Declares : Event → Prop
  | .enter node => node.tree.declarations ≠ []
  | .exit _ | .leaf _ => False

/-- Events in which declarations are met only where the current scope is the innermost one. -/
def Orderly : Bool → List Event → Prop
  | _, [] => True
  | settled, event :: events =>
    (event.Declares → settled = true) ∧ Orderly (event.settles settled) events

theorem orderly_append {settled : Bool} {events more : List Event} :
    Orderly settled (events ++ more) ↔
      Orderly settled events ∧ Orderly (events.foldl Event.settles settled) more := by
  induction events generalizing settled with
  | nil => simp [Orderly]
  | cons event events ih => simp [Orderly, ih, and_assoc]

/-- Two walks in step: the second is in the innermost scope, and so is the first if `settled`. -/
structure InStep (settled : Bool) (builder other : Builder) : Prop where
  alike : builder.Alike other
  back : other.current = other.innermost
  current : settled = true → builder.current = builder.innermost

section Steps

variable {settled : Bool} {builder other : Builder}

theorem InStep.eq (h : InStep settled builder other) (hsettled : settled = true) :
    builder = other :=
  h.alike.eq (by rw [h.current hsettled, h.back, Builder.innermost, h.alike.opened]; rfl)

/-- Declarations do not change which scopes are open and which is the current one. -/
theorem Builder.declare_all_frame (builder : Builder) (declarations : List (Option Declaration)) :
    (builder.declareAll declarations).builder.current = builder.current ∧
      (builder.declareAll declarations).builder.opened = builder.opened := by
  induction declarations generalizing builder with
  | nil => exact ⟨rfl, rfl⟩
  | cons declaration rest ih =>
      cases declaration with
      | none => exact ⟨rfl, rfl⟩
      | some declaration =>
          rw [declareAll, declare]
          cases builder.table.define builder.current declaration.symbol declaration.place with
          | error problem => exact ⟨rfl, rfl⟩
          | ok table => exact ih _

/-- A scope that is opened is the current one, whatever was current before. -/
theorem Builder.Alike.open_scope (h : builder.Alike other) (name : String) (kind : ScopeKind) :
    builder.openScope name kind = other.openScope name kind := by
  simp only [Builder.openScope, Builder.note, h.table, h.nextBlock, h.opened, h.notices]

theorem Builder.Alike.open_block (h : builder.Alike other) :
    builder.openBlock = other.openBlock := by
  simp only [Builder.openBlock, Builder.openScope, Builder.note, h.table, h.nextBlock, h.opened,
    h.notices]

/-- Builders are in step where a scope has just been opened. -/
theorem InStep.of_opened (heq : builder = other) (hcurrent : other.current = other.innermost) :
    InStep true builder other :=
  ⟨heq ▸ .refl _, hcurrent, fun _ => heq ▸ hcurrent⟩

theorem InStep.enter (h : InStep settled builder other) (node : Occurrence)
    (hdeclares : node.tree.declarations ≠ [] → settled = true) :
    (builder.enter node).Alike (other.enter node) ∧
      ((builder.enter node).halt = none →
        InStep (settled || node.opens) (builder.enter node).builder
          (other.enter node).builder) := by
  unfold Builder.enter Occurrence.opens
  by_cases hblock : node.hasBlock = true
  · have hnext := InStep.of_opened h.alike.open_block rfl
    simp only [hblock, if_true, Bool.true_or, Bool.or_true]
    exact ⟨⟨rfl, hnext.alike⟩, fun _ => hnext⟩
  · rw [Bool.not_eq_true] at hblock
    by_cases hfunction : node.tree.rule? = some .function
    · simp only [hblock, hfunction, if_true, Bool.false_eq_true, if_false, decide_true,
        Bool.or_true]
      cases node.tree.childOf? .ident with
      | none => exact ⟨⟨rfl, h.alike⟩, fun hhalt => absurd hhalt (Option.some_ne_none _)⟩
      | some ident =>
          have hnext := InStep.of_opened (h.alike.open_scope ident.text .function) rfl
          exact ⟨⟨rfl, hnext.alike⟩, fun _ => hnext⟩
    · simp only [hblock, hfunction, Bool.false_eq_true, if_false, decide_false, Bool.or_false]
      by_cases hnone : node.tree.declarations = []
      · rw [hnone]
        exact ⟨⟨rfl, h.alike⟩, fun _ => h⟩
      · -- where declarations are made the two builders are the same
        obtain rfl := h.eq (hdeclares hnone)
        obtain ⟨hcurrent, hopened⟩ := builder.declare_all_frame node.tree.declarations
        have hback : (builder.declareAll node.tree.declarations).builder.current =
            (builder.declareAll node.tree.declarations).builder.innermost := by
          rw [hcurrent, h.back, Builder.innermost, Builder.innermost, hopened]
        exact ⟨⟨rfl, .refl _⟩, fun _ => ⟨.refl _, hback, fun _ => hback⟩⟩

/-- Closing a scope does not depend on which scope is the current one. -/
theorem InStep.close (h : InStep settled builder other) :
    builder.close.Alike other.closeBack ∧
      (builder.close.halt = none → InStep false builder.close.builder other.closeBack.builder) := by
  -- the builders are one record but for the current scope, which closing never reads
  obtain ⟨⟨htable, hnext, hopened, hnotices⟩, -, -⟩ := h
  obtain ⟨table, current, nextBlock, opened, notices⟩ := builder
  obtain ⟨table, current', nextBlock, opened, notices⟩ := other
  subst htable hnext hopened hnotices
  have hunsettled (next : Builder) : InStep false next { next with current := next.innermost } :=
    ⟨⟨rfl, rfl, rfl, rfl⟩, rfl, fun h => absurd h Bool.false_ne_true⟩
  cases opened with
  | nil => exact ⟨⟨rfl, rfl, rfl, rfl, rfl⟩, fun h => absurd h (Option.some_ne_none _)⟩
  | cons handle opened =>
      have hempty : (⟨table, current, nextBlock, opened, notices⟩ : Builder).isEmptyBlock handle =
          (⟨table, current', nextBlock, opened, notices⟩ : Builder).isEmptyBlock handle := rfl
      simp only [Builder.closeBack, Builder.close, hempty]
      split
      · cases table.discard handle with
        | none => exact ⟨⟨rfl, rfl, rfl, rfl, rfl⟩, fun h => absurd h (Option.some_ne_none _)⟩
        | some table => exact ⟨⟨rfl, rfl, rfl, rfl, rfl⟩, fun _ => hunsettled _⟩
      · exact ⟨⟨rfl, rfl, rfl, rfl, rfl⟩, fun _ => hunsettled _⟩

/-- One event keeps builders in step. -/
theorem InStep.step (h : InStep settled builder other) (event : Event)
    (hdeclares : event.Declares → settled = true) :
    (builder.step event).Alike (other.stepBack event) ∧
      ((builder.step event).halt = none →
        InStep (event.settles settled) (builder.step event).builder
          (other.stepBack event).builder) := by
  cases event with
  | enter node => exact h.enter node hdeclares
  | exit node =>
      show (builder.exit node).Alike (other.exitBack node) ∧
        ((builder.exit node).halt = none →
          InStep (settled && !node.closes) (builder.exit node).builder
            (other.exitBack node).builder)
      unfold Builder.exit Builder.exitBack Occurrence.closes
      split
      · next hcloses =>
        rw [hcloses, Bool.not_true, Bool.and_false]
        exact h.close
      · next hcloses =>
        rw [Bool.not_eq_true] at hcloses
        rw [hcloses, Bool.not_false, Bool.and_true]
        exact ⟨⟨rfl, h.alike⟩, fun _ => h⟩
  | leaf leaf => exact ⟨⟨rfl, h.alike⟩, fun _ => h⟩

/-- Orderly events keep builders in step. -/
theorem InStep.walk (h : InStep settled builder other) (events : List Event)
    (horderly : Orderly settled events) :
    (builder.walk events).Alike (other.walkBack events) ∧
      ((builder.walk events).halt = none →
        InStep (events.foldl Event.settles settled) (builder.walk events).builder
          (other.walkBack events).builder) := by
  induction events generalizing settled builder other with
  | nil => exact ⟨⟨rfl, h.alike⟩, fun _ => h⟩
  | cons event events ih =>
      obtain ⟨hdeclares, horderly⟩ := horderly
      obtain ⟨halike, hnext⟩ := h.step event hdeclares
      have hhalt := halike.halt
      unfold Builder.walk Builder.walkBack Outcome.andThen
      rw [← hhalt]
      cases hstep : (builder.step event).halt with
      | some halt => exact ⟨halike, fun h => absurd (hstep ▸ h) (Option.some_ne_none _)⟩
      | none => exact ih (hnext hstep) horderly

end Steps

namespace Rule

/-- Whether a rule can make declarations before it opens a scope. -/
def declaresFirst : Rule → Bool
  | .program | .programBody | .declarations | .stringDecl | .varDecl | .paramList
  | .functionBody => true
  | _ => false

/-- Whether a rule closes no scope. -/
def closesNone : Rule → Bool
  | .program | .programBody | .functions | .function | .functionBody | .statements | .statement
  | .ifStatement | .elseBranch | .whileStatement => false
  | _ => true

end Rule

namespace Phrase

/-- Whether no part that makes declarations can stand behind one that closes a scope. -/
def isOrderly : Phrase → Bool
  | .empty | .token _ | .oneOf _ | .rule _ => true
  | .seq first second =>
    first.isOrderly && second.isOrderly &&
      (first.mentionsOnly Rule.closesNone || second.mentionsOnly (!·.declaresFirst))
  | .alt left right | .fork _ _ left right => left.isOrderly && right.isOrderly
  | .opt body => body.isOrderly
  | .star body =>
    body.isOrderly && (body.mentionsOnly Rule.closesNone || body.mentionsOnly (!·.declaresFirst))

theorem is_orderly_of_branch {phrase body : Phrase} (hmem : body ∈ phrase.branches)
    (h : phrase.isOrderly = true) : body.isOrderly = true :=
  of_branch (·.isOrderly = true) (fun _ _ => Bool.and_eq_true_iff.1)
    (fun _ _ _ _ => Bool.and_eq_true_iff.1) (fun _ h => h) hmem h

end Phrase

namespace Rule

theorem is_orderly_body (rule : Rule) : rule.body.isOrderly = true := by
  cases rule <;> decide

/-- A rule that opens no scope makes declarations first if a part of it does. -/
theorem declares_first_body (rule : Rule) :
    rule.declaresFirst = true ∨ rule.isControl = true ∨ rule = .function ∨
      rule.body.mentionsOnly (!·.declaresFirst) = true := by
  cases rule <;> decide

theorem closes_none_body {rule : Rule} (h : rule.closesNone = true) :
    rule.body.mentionsOnly closesNone = true := by
  revert h
  cases rule <;> decide

end Rule

theorem orderly_leaf {settled : Bool} {leaf : Occurrence} {events : List Event} :
    Orderly settled (.leaf leaf :: events) ↔ Orderly settled events := by
  simp [Orderly, Event.Declares, Event.settles]

/-- Only rules that declare first make declarations. -/
theorem Tree.declares_first_of_declarations {name : Rule} {start : Token} {stop : Option Token}
    {children : List Tree} (h : (Tree.node name start stop children).declarations ≠ []) :
    name.declaresFirst = true := by
  cases name with
  | paramList | varDecl | stringDecl => rfl
  | _ => exact absurd rfl h

/-- A rule that closes nothing inside closes nothing when it is left. -/
theorem Occurrence.closes_eq_false {above : List Rule} {name : Rule} {start : Token}
    {stop : Option Token} {children : List Tree} (h : name.closesNone = true) :
    (Occurrence.mk above (.node name start stop children)).closes = false := by
  cases name with
  | program | programBody | functions | function | functionBody | statements | statement
  | ifStatement | elseBranch | whileStatement => exact absurd h Bool.false_ne_true
  | _ => rfl

/-- Entering a rule with its own scope settles where declarations go. -/
theorem Occurrence.opens_of_control {above : List Rule} {name : Rule} {start : Token}
    {stop : Option Token} {children : List Tree} (h : name.isControl = true ∨ name = .function) :
    (Occurrence.mk above (.node name start stop children)).opens = true := by
  rcases h with hcontrol | rfl
  · cases name with
    | ifStatement | elseBranch | whileStatement => rfl
    | _ => exact absurd hcontrol Bool.false_ne_true
  · rfl

/-- `Settled phrase above trees` says that a walk of the trees is orderly where the phrase makes no
declarations first or the current scope is the innermost one, and that the current scope still is
the innermost one in the end if it was and the phrase closes no scope. -/
def Settled (phrase : Phrase) (above : List Rule) (trees : List Tree) : Prop :=
  ∀ settled : Bool, (settled = true ∨ phrase.mentionsOnly (!·.declaresFirst) = true) →
    Orderly settled (Tree.walkAll above trees) ∧
      (settled = true → phrase.mentionsOnly Rule.closesNone = true →
        (Tree.walkAll above trees).foldl Event.settles settled = true)

theorem Settled.nil (phrase : Phrase) (above : List Rule) : Settled phrase above [] :=
  fun _ _ => ⟨trivial, fun hbefore _ => hbefore⟩

theorem Settled.cons_leaf {phrase : Phrase} {above : List Rule} {tree : Tree} {trees : List Tree}
    (hleaf : tree.isNode = false) (h : Settled phrase above trees) :
    Settled phrase above (tree :: trees) := by
  intro settled hsettled
  rw [Tree.walkAll, Tree.walk_of_leaf hleaf, List.singleton_append, orderly_leaf]
  exact h settled hsettled

/-- Two parts in a row are settled if the first closes no scope or the second makes no declarations
first. -/
theorem Settled.append {first second : Phrase} {above : List Rule} {front back : List Tree}
    (hfront : Settled first above front) (hback : Settled second above back)
    (horder : first.mentionsOnly Rule.closesNone = true ∨
      second.mentionsOnly (!·.declaresFirst) = true) :
    Settled (.seq first second) above (front ++ back) := by
  intro settled hsettled
  simp only [Phrase.mentionsOnly, Bool.and_eq_true] at hsettled ⊢
  obtain ⟨hfirst, hkept⟩ := hfront settled (hsettled.imp_right (·.1))
  have hbetween : (Tree.walkAll above front).foldl Event.settles settled = true ∨
      second.mentionsOnly (!·.declaresFirst) = true := by
    rcases hsettled with hbefore | ⟨-, hfree⟩
    · exact horder.imp_left (hkept hbefore)
    · exact .inr hfree
  obtain ⟨hsecond, hkept'⟩ := hback _ hbetween
  rw [Tree.walk_all_append, List.foldl_append]
  exact ⟨orderly_append.2 ⟨hfirst, hsecond⟩,
    fun hbefore ⟨hnone, hnone'⟩ => hkept' (hkept hbefore hnone) hnone'⟩

/-- A node is settled if its parts are. -/
theorem Settled.node {name : Rule} {above : List Rule} {children : List Tree} (start : Token)
    (stop : Option Token) (h : Settled name.body (name :: above) children) :
    Settled (.rule name) above [.node name start stop children] := by
  intro settled hsettled
  let node : Occurrence := ⟨above, .node name start stop children⟩
  have hevents : Tree.walkAll above [node.tree] =
      .enter node :: (Tree.walkAll (name :: above) children ++ [.exit node]) := by
    simp only [Tree.walkAll, Tree.walk, List.append_nil, List.cons_append, node]
  have hfree : settled = true ∨ name.declaresFirst = false := by
    simpa [Phrase.mentionsOnly] using hsettled
  -- the scope that the node opens, if any, is the innermost one where its parts begin
  have hinside : (settled || node.opens) = true ∨
      name.body.mentionsOnly (!·.declaresFirst) = true := by
    rcases name.declares_first_body with hfirst | hcontrol | hfunction | hbody
    · exact .inl (by rw [hfree.resolve_right (by simp [hfirst]), Bool.true_or])
    · exact .inl (by rw [Occurrence.opens_of_control (.inl hcontrol), Bool.or_true])
    · exact .inl (by rw [Occurrence.opens_of_control (.inr hfunction), Bool.or_true])
    · exact .inr hbody
  obtain ⟨hparts, hkept⟩ := h _ hinside
  show Orderly settled (Tree.walkAll above [node.tree]) ∧
    (settled = true → name.closesNone = true →
      (Tree.walkAll above [node.tree]).foldl Event.settles settled = true)
  rw [hevents]
  constructor
  · refine ⟨fun hdeclares => ?_, orderly_append.2 ⟨hparts, False.elim, trivial⟩⟩
    exact hfree.resolve_right (by simp [Tree.declares_first_of_declarations hdeclares])
  · intro hbefore hnone
    have hlast := hkept (by rw [hbefore, Bool.true_or]) (Rule.closes_none_body hnone)
    rw [List.foldl_cons, List.foldl_append]
    show ((Tree.walkAll (name :: above) children).foldl Event.settles (settled || node.opens) &&
      !node.closes) = true
    rw [hlast, Occurrence.closes_eq_false hnone]
    rfl

/-- A phrase that mentions more rules asks for more and promises less. -/
theorem Settled.mono {phrase other : Phrase} {above : List Rule} {trees : List Tree}
    (h : Settled phrase above trees)
    (hmentions : ∀ isGood, other.mentionsOnly isGood = true → phrase.mentionsOnly isGood = true) :
    Settled other above trees := by
  intro settled hsettled
  obtain ⟨horderly, hkept⟩ := h settled (hsettled.imp_right (hmentions _))
  exact ⟨horderly, fun hbefore hnone => hkept hbefore (hmentions _ hnone)⟩

theorem Settled.leaves {phrase : Phrase} {above : List Rule} {trees : List Tree}
    (h : ∀ tree ∈ trees, tree.isNode = false) : Settled phrase above trees := by
  induction trees with
  | nil => exact .nil phrase above
  | cons tree trees ih =>
      rw [List.forall_mem_cons] at h
      exact .cons_leaf h.1 (ih h.2)

/-- What is left of a phrase is settled if the phrase is orderly. -/
theorem Attempt.settled {certain whole : Bool} {phrase : Phrase} {trees : List Tree}
    (h : Attempt certain phrase whole trees) (hphrase : phrase.isOrderly = true)
    (above : List Rule) : Settled phrase above trees := by
  induction h generalizing above with
  | empty | absent | starNil => exact .nil _ above
  | leaf => exact .cons_leaf rfl (.nil _ above)
  | extra hleaf _ ih => exact .cons_leaf hleaf (ih hphrase above)
  | @rule _ _ name _ _ start stop _ hpassed ih =>
      have hparts := (ih name.is_orderly_body (name :: above)).append
        (@Settled.leaves .empty _ _ hpassed) (.inr rfl)
      exact .node start stop (hparts.mono fun isGood hgood => by simp [Phrase.mentionsOnly, hgood])
  | seq _ _ ih ih' =>
      simp only [Phrase.isOrderly, Bool.and_eq_true, Bool.or_eq_true] at hphrase
      exact (ih hphrase.1.1 above).append (ih' hphrase.1.2 above) hphrase.2
  | seqStuck _ ih =>
      simp only [Phrase.isOrderly, Bool.and_eq_true] at hphrase
      refine (ih hphrase.1.1 above).mono fun isGood hgood => ?_
      rw [Phrase.mentionsOnly, Bool.and_eq_true] at hgood
      exact hgood.1
  | branch hmem _ ih =>
      exact (ih (Phrase.is_orderly_of_branch hmem hphrase) above).mono fun isGood hgood =>
        Phrase.mentions_only_of_branch hmem hgood
  | starCons _ _ ih ih' =>
      have hbody := hphrase
      rw [Phrase.isOrderly, Bool.and_eq_true, Bool.or_eq_true] at hbody
      refine ((ih hbody.1 above).append (ih' hphrase above) hbody.2).mono fun isGood hgood => ?_
      rw [Phrase.mentionsOnly, Bool.and_eq_true]
      exact ⟨hgood, hgood⟩
  | starStuck _ ih =>
      rw [Phrase.isOrderly, Bool.and_eq_true] at hphrase
      exact ih hphrase.1 above

/-- Whatever text is parsed by whatever rule, a walk of the tree with the builder that goes back to
the global scope and one with the builder that goes back to the scope around do the same, event by
event: the same table, open scopes and block numbers, and the same error at the same event. Wherever
a declaration is made the current scope is the innermost open one. -/
theorem walk_back_alike (entry : Rule) (source : String) :
    (∀ before after : List Event,
      (Parse.ofSource entry source).tree.events = before ++ after →
      (Builder.start.walk before).Alike (Builder.start.walkBack before)) ∧
    ∀ (before after : List Event) (event : Event),
      (Parse.ofSource entry source).tree.events = before ++ event :: after →
      event.Declares → (Builder.start.walk before).halt = none →
      (Builder.start.walk before).builder.current =
        (Builder.start.walk before).builder.innermost := by
  have hsettled := (Parse.attempt_of_source entry source).settled rfl [] true (.inl rfl)
  have horderly : Orderly true (Parse.ofSource entry source).tree.events := by
    simpa [Tree.walkAll, Tree.events] using hsettled.1
  have hstart : InStep true .start .start := ⟨.refl _, rfl, fun _ => rfl⟩
  constructor
  · intro before after hevents
    rw [hevents, orderly_append] at horderly
    exact (hstart.walk before horderly.1).1
  · intro before after event hevents hdeclares hhalt
    rw [hevents, orderly_append] at horderly
    exact ((hstart.walk before horderly.1).2 hhalt).current (horderly.2.1 hdeclares)

end Little
