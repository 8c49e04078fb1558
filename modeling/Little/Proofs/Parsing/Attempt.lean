import Little.Proofs.Parsing.Exact
import Little.Proofs.Parsing.Guards

/-!
# What a parse leaves of a rule

A parse with faults leaves trees that no derivation has: parts are missing, a rule was given up half
way, and leaves stand where nothing was expected. `Attempt` says what can still be relied on. Each
node has the parts of its right-hand side in their order, and it lacks none before the place where
the rule was given up. `Rule.parse_attempt` says that every tree the parser returns is an attempt
at its rule, and so is the tree of any text (`Parse.attempt_of_source`).
-/

namespace Little

namespace Phrase

/-- The kinds of token that a phrase of one token allows. -/
def terminals : Phrase → List Kind
  | .token kind => [kind]
  | .oneOf kinds => kinds
  | _ => []

/-- Whether the token in view can prevent a phrase from having any part in the tree. -/
def mayFail : Phrase → Bool
  | .token _ | .oneOf _ | .alt .. | .opt _ | .fork .. => true
  | .empty | .rule _ | .seq .. | .star _ => false

theorem may_fail_of_choice {phrase : Phrase} (hchoice : phrase.branches ≠ []) :
    phrase.mayFail = true := by
  cases phrase with
  | alt | opt | fork => rfl
  | _ => exact absurd rfl hchoice

end Phrase

/-- `Attempt certain phrase whole trees` says that the trees can come from reading the phrase, from
a token that can start it if `certain`, and to its end if `whole`. -/
inductive Attempt : Bool → Phrase → Bool → List Tree → Prop where
  | empty (certain : Bool) : Attempt certain .empty true []
  | leaf (certain : Bool) {phrase : Phrase} (token : Token) :
      token.kind ∈ phrase.terminals → Attempt certain phrase true [.leaf token]
  | absent {certain : Bool} {phrase : Phrase} (whole : Bool) :
      phrase.mayFail = true → (certain = true → phrase.isNullable = true) →
      Attempt certain phrase whole []
  /-- A leaf that was not expected. -/
  | extra {certain whole : Bool} {phrase : Phrase} {tree : Tree} {trees : List Tree} :
      tree.isNode = false → Attempt certain phrase whole trees →
      Attempt certain phrase whole (tree :: trees)
  /-- A rule is always read to its end, by giving up the rest of its right-hand side if need be. -/
  | rule {certain whole : Bool} {name : Rule} {children passed : List Tree} (start : Token)
      (stop : Option Token) :
      Attempt certain name.body whole children → (∀ tree ∈ passed, tree.isNode = false) →
      Attempt certain (.rule name) true [.node name start stop (children ++ passed)]
  | seq {certain whole : Bool} {first second : Phrase} {front back : List Tree} :
      Attempt (certain && !first.isNullable) first true front → Attempt false second whole back →
      Attempt certain (.seq first second) whole (front ++ back)
  | seqStuck {certain : Bool} {first second : Phrase} {front : List Tree} :
      Attempt (certain && !first.isNullable) first false front →
      Attempt certain (.seq first second) false front
  | branch {certain whole : Bool} {phrase body : Phrase} {trees : List Tree} :
      body ∈ phrase.branches → Attempt true body whole trees → Attempt certain phrase whole trees
  | starNil (certain : Bool) (body : Phrase) : Attempt certain (.star body) true []
  | starCons {certain whole : Bool} {body : Phrase} {front back : List Tree} :
      Attempt true body true front → Attempt false (.star body) whole back →
      Attempt certain (.star body) whole (front ++ back)
  | starStuck {certain : Bool} {body : Phrase} {front : List Tree} :
      Attempt true body false front → Attempt certain (.star body) false front

/-- What was read is an attempt at a phrase. -/
def Progress.Attempts (progress : Progress) (certain : Bool) (phrase : Phrase) : Prop :=
  Attempt certain phrase progress.stuck.isNone progress.made

/-- Reading a rule to the depth given makes an attempt at it. -/
def AttemptTo (depth : Nat) : Prop :=
  ∀ (name : Rule) (stack : List Phrase) (certain : Bool) (state : State),
    state.eof.kind = .eof → (certain = true → name.startsWith state.current.kind = true) →
    Deep depth ((Phrase.rule name).need certain) state →
    Attempt certain (.rule name) true [(name.parse depth stack state).1]

theorem Attempt.extras {certain whole : Bool} {phrase : Phrase} {passed trees : List Tree}
    (h : Attempt certain phrase whole trees) (hpassed : ∀ tree ∈ passed, tree.isNode = false) :
    Attempt certain phrase whole (passed ++ trees) := by
  induction passed with
  | nil => exact h
  | cons tree passed ih =>
      rw [List.forall_mem_cons] at hpassed
      exact .extra hpassed.1 (ih hpassed.2)

namespace State

/-- Reading one token is an attempt at it. -/
theorem expect_attempts {kinds : List Kind} {conjured : Option Kind}
    {site follow phrase : Phrase} {stack : List Phrase} {certain : Bool} {state : State}
    (hterminals : phrase.terminals = kinds) (hfail : phrase.mayFail = true)
    (hstarts : certain = true → state.current.kind ∈ kinds) :
    (state.expect kinds conjured site follow stack).Attempts certain phrase := by
  by_cases hkind : state.current.kind ∈ kinds
  · rw [expect_fits hkind]
    exact .leaf certain state.current (hterminals ▸ hkind)
  · have hcertain : certain = true → phrase.isNullable = true := fun hcertain =>
      absurd (hstarts hcertain) hkind
    rw [expect, if_neg (by simpa using hkind)]
    dsimp only
    split
    · next hsecond =>
      exact .extra rfl (.leaf certain _ (hterminals ▸ by simpa using hsecond))
    · split
      · rw [← List.append_nil (conjured.toList.map _)]
        refine Attempt.extras (.absent true hfail hcertain) ?_
        simp [conjure, Tree.isNode]
      · exact .absent false hfail hcertain

/-- What is done before a choice leaves leaves only, and nothing where it gives up. -/
theorem sync_extras (site : Phrase) (state : State) :
    (∀ tree ∈ (state.sync site).made, tree.isNode = false) ∧
      ((state.sync site).stuck ≠ none → (state.sync site).made = []) := by
  unfold sync
  split
  · simp
  · dsimp only
    split <;> simp [Tree.isNode]

/-- Reading one token leaves leaves only. -/
theorem expect_leaves (kinds : List Kind) (conjured : Option Kind) (site follow : Phrase)
    (stack : List Phrase) (state : State) :
    ∀ tree ∈ (state.expect kinds conjured site follow stack).made, tree.isNode = false := by
  unfold expect
  split
  · simp [Tree.isNode]
  · dsimp only
    split
    · simp [Tree.isNode]
    · split
      · simp [conjure, Tree.isNode]
      · simp

/-- What is passed in giving up a rule leaves leaves only. -/
theorem recover_extras (site : Site) (stack : List Phrase) (state : State) :
    ∀ tree ∈ (state.recover site stack).1, tree.isNode = false := by
  intro tree htree
  unfold recover unstall skipWhile at htree
  dsimp only at htree
  rw [List.mem_append, List.mem_map] at htree
  rcases htree with hforced | ⟨token, -, rfl⟩
  · split at hforced
    · rw [List.mem_singleton.1 hforced]
      rfl
    · exact absurd hforced List.not_mem_nil
  · rfl

end State

/-- Depth enough for a token is enough for any phrase before it. -/
theorem Deep.rank_lt {depth rank : Nat} {state : State} (h : Deep depth rank state)
    (hahead : state.ahead ≠ []) (phrase : Phrase) : phrase.rank < depth := by
  have hrank := phrase.rank_lt
  have hmul : Rule.all.length * 1 ≤ Rule.all.length * state.ahead.length :=
    Nat.mul_le_mul_left _ (List.length_pos_iff.2 hahead)
  unfold Deep at h
  omega

/-- Before the end of the text no phrase can start in which the mark at the end has no place. -/
theorem State.ahead_ne_nil {phrase : Phrase} {state : State} (hfree : phrase.isEndFree = true)
    (heof : state.eof.kind = .eof) (hstarts : phrase.startsWith state.current.kind = true) :
    state.ahead ≠ [] := by
  intro hahead
  rw [current_of_nil hahead, heof, Phrase.starts_with_eof hfree] at hstarts
  exact Bool.false_ne_true hstarts

/-- The first part of a sequence is as certain as the sequence, unless it may stand for nothing. -/
theorem Deep.need_first {depth : Nat} {certain : Bool} {first second : Phrase} {state : State}
    (h : Deep depth ((Phrase.seq first second).need certain) state) :
    Deep depth (first.need (certain && !first.isNullable)) state := by
  rw [Phrase.need] at h
  by_cases hsure : (certain && !first.isNullable) = true
  · rw [if_pos hsure] at h
    rwa [hsure]
  · rw [if_neg hsure] at h
    rw [Bool.not_eq_true] at hsure
    rw [hsure]
    exact h.mono (Nat.le_refl _) (Nat.le_max_left _ _)

/-- Behind the first part of a sequence, wherever it was read to a depth that is enough, any depth
that is enough for the sequence is enough for the second part. -/
theorem Deep.need_second {depth other : Nat} {rule : Rule} {certain : Bool}
    {first second follow : Phrase} {state : State}
    (h : Deep depth ((Phrase.seq first second).need certain) state)
    (hother : Deep other ((Phrase.seq first second).need certain) state) (stack : List Phrase)
    (hfree : first.isEndFree = true)
    (hpredictive : first.isPredictive rule (.seq second follow) = true)
    (heof : state.eof.kind = .eof)
    (hfirst : (certain && !first.isNullable) = true →
      first.startsWith state.current.kind = true) :
    Deep other (second.need false)
      (first.run (Rule.parse depth) stack depth (.seq second follow) state).state := by
  by_cases hsure : (certain && !first.isNullable) = true
  · -- the token in view is passed by the first part, which pays for any second one
    have hstarts := hfirst hsure
    have hrank := h.rank_lt (State.ahead_ne_nil hfree heof hstarts) first
    have hlt := Phrase.run_progress Rule.parse_progress stack first (.seq second follow) hfree
      hpredictive hrank heof hstarts
    exact hother.of_lt hlt (second.need_lt false)
  · have hmoves := reading_moves depth stack first (.seq second follow) state
    rw [Phrase.need, if_neg hsure] at hother
    exact hother.mono hmoves.length_ahead_le (Nat.le_max_right _ _)

namespace Progress

variable {certain : Bool} {phrase : Phrase} {progress : Progress} {next : State → Progress}

/-- A choice is attempted by what is read behind the check before it. -/
theorem Attempts.of_sync {site : Phrase} {state : State} (hfail : phrase.mayFail = true)
    (hsite : site.startsWith state.current.kind = true ∨ certain = false)
    (hnext : ∀ next', Moves state next' →
      (site.startsWith state.current.kind = true → next' = state) →
      (next next').Attempts certain phrase) :
    ((state.sync site).andThen next).Attempts certain phrase := by
  by_cases hfits : site.startsWith state.current.kind = true
  · rw [State.sync_and_then_fits (.inr hfits)]
    exact hnext state .refl fun _ => rfl
  · obtain rfl := hsite.resolve_left hfits
    obtain ⟨hextras, hempty⟩ := State.sync_extras site state
    cases hstuck : (state.sync site).stuck with
    | some left =>
        have hmade := hempty (by rw [hstuck]; exact Option.some_ne_none left)
        rw [andThen, hstuck]
        simp only [Attempts, hmade]
        exact .absent _ hfail fun h => absurd h Bool.false_ne_true
    | none =>
        rw [and_then_of_not_stuck hstuck]
        exact Attempt.extras
          (hnext _ (State.sync_moves site state) fun h => absurd h hfits) hextras

/-- A sequence is attempted by its parts, up to the first that had to be given up. -/
theorem Attempts.and_then {first second : Phrase}
    (h : progress.Attempts (certain && !first.isNullable) first)
    (hnext : progress.stuck = none → (next progress.state).Attempts false second) :
    (progress.andThen next).Attempts certain (.seq first second) := by
  unfold Attempts at h
  cases hstuck : progress.stuck with
  | some left =>
      rw [hstuck] at h
      rw [andThen, hstuck]
      simp only [Attempts, hstuck]
      exact .seqStuck h
  | none =>
      rw [hstuck] at h
      rw [and_then_of_not_stuck hstuck]
      exact .seq h (hnext hstuck)

/-- A rule that was read or given up is attempted by its node. -/
theorem Attempts.close {name : Rule} (h : progress.Attempts certain name.body) (start : Token)
    (stack : List Phrase) :
    Attempt certain (.rule name) true [(progress.close name start stack).1] := by
  unfold Attempts at h
  unfold Progress.close
  split
  · rw [← List.append_nil progress.made]
    exact .rule start _ h (fun tree htree => absurd htree List.not_mem_nil)
  · exact .rule start _ h (State.recover_extras _ stack _)

end Progress

/-- A repetition is attempted by its rounds. -/
theorem repeat_while_attempts {body : Phrase} {enters : Kind → Bool} {step : State → Progress}
    {state : State} (certain : Bool) (rounds : Nat)
    (hstep : ∀ next, Moves state next → enters next.current.kind = true →
      (step next).Attempts true body)
    (hmoves : ∀ next, Moves next (step next).state) :
    (repeatWhile enters step rounds state).Attempts certain (.star body) := by
  induction rounds generalizing certain state with
  | zero => exact .starNil certain body
  | succ rounds ih =>
      rw [repeatWhile]
      split
      · next henters =>
        have hround := hstep state .refl henters
        unfold Progress.Attempts at hround
        cases hstuck : (step state).stuck with
        | some left =>
            rw [hstuck] at hround
            rw [Progress.andThen, hstuck]
            simp only [Progress.Attempts, hstuck]
            exact .starStuck hround
        | none =>
            rw [hstuck] at hround
            rw [Progress.and_then_of_not_stuck hstuck]
            exact .starCons hround (ih false fun next hnext =>
              hstep next ((hmoves state).trans hnext))
      · exact .starNil certain body

section Runs

variable {depth : Nat} {rule : Rule}

/-- Where a choice is certain its first token fits the place. -/
theorem Phrase.starts_or_uncertain {phrase : Phrase} {certain : Bool} {kind : Kind}
    (hstarts : certain = true → phrase.startsWith kind = true) (follow : Phrase) :
    (Phrase.seq phrase follow).startsWith kind = true ∨ certain = false := by
  cases certain with
  | false => exact .inr rfl
  | true => exact .inl (by rw [startsWith, hstarts rfl, Bool.true_or])

theorem Phrase.run_attempts (hcall : AttemptTo depth) (stack : List Phrase)
    (phrase follow : Phrase) (certain : Bool) {state : State} (heof : state.eof.kind = .eof)
    (hpredictive : phrase.isPredictive rule follow = true)
    (hends : phrase.isEndFree = true ∨ phrase.ends = true)
    (hstarts : certain = true → phrase.startsWith state.current.kind = true)
    (hdeep : Deep depth (phrase.need certain) state) :
    (phrase.run (Rule.parse depth) stack depth follow state).Attempts certain phrase := by
  induction phrase using choice_induction generalizing follow certain state with
  | empty => exact .empty certain
  | token kind =>
      refine State.expect_attempts rfl rfl fun hcertain => ?_
      have hkind := hstarts hcertain
      rw [startsWith, beq_iff_eq] at hkind
      exact hkind ▸ List.mem_singleton_self _
  | oneOf kinds =>
      refine State.expect_attempts rfl rfl fun hcertain => ?_
      simpa [startsWith] using hstarts hcertain
  | rule name => exact hcall name (follow :: stack) certain state heof hstarts hdeep
  | seq first second ih ih' =>
      simp only [isPredictive, Bool.and_eq_true] at hpredictive
      have hfree := is_end_free_of_seq hends
      have hfirst : (certain && !first.isNullable) = true →
          first.startsWith state.current.kind = true := by
        intro hsure
        rw [Bool.and_eq_true, Bool.not_eq_true'] at hsure
        have hboth := hstarts hsure.1
        rwa [startsWith, hsure.2, Bool.false_and, Bool.or_false] at hboth
      have hmoves := reading_moves depth stack first (.seq second follow) state
      rw [run]
      refine .and_then
        (ih _ _ heof hpredictive.1 (.inl hfree.1) hfirst hdeep.need_first) fun _ => ?_
      exact ih' _ false (hmoves.eof_eq ▸ heof) hpredictive.2 hfree.2
        (fun h => absurd h Bool.false_ne_true)
        (hdeep.need_second hdeep stack hfree.1 hpredictive.1 heof hfirst)
  | star body ih =>
      simp only [isPredictive, ends, isEndFree, Bool.and_eq_true, Bool.false_eq_true,
        or_false] at hpredictive hends
      exact repeat_while_attempts certain depth
        (fun next hnext hbody => ih _ true (hnext.eof_eq ▸ heof) hpredictive.2 (.inl hends)
          (fun _ => hbody) (hdeep.mono hnext.length_ahead_le (Nat.le_refl _)))
        (reading_moves depth stack body _)
  | choice phrase hchoice ih =>
      have hfree := is_end_free_of_choice hchoice hends
      have hfail := may_fail_of_choice hchoice
      obtain ⟨next, hrun, hchosen⟩ := run_choice hchoice hpredictive depth stack state
      rw [hrun]
      refine .of_sync hfail (starts_or_uncertain hstarts follow) fun before hbefore heq => ?_
      have hprogress := hchosen before
      generalize next before = progress at hprogress ⊢
      cases hprogress with
      | @branch body after hmem hmoves hahead hbody =>
          have hafter : Moves state after := hbefore.trans hmoves
          exact .branch hmem (ih body hmem follow true (hafter.eof_eq ▸ heof)
            (is_predictive_of_branch hmem hpredictive) (.inl (is_end_free_of_branch hmem hfree))
            (fun _ => hbody)
            (hdeep.mono hafter.length_ahead_le (need_of_branch hmem certain)))
      | nothing hnothing => exact .absent true hfail fun _ => hnothing.is_nullable
      | stuck _ hnot =>
          -- a token that can start the choice leaves no reason to give up
          refine .absent false hfail fun hcertain => ?_
          have hstart := hstarts hcertain
          have hsite : (Phrase.seq phrase follow).startsWith state.current.kind = true := by
            rw [startsWith, hstart, Bool.true_or]
          rw [heq hsite] at hnot
          exact absurd hstart (ne_true_of_eq_false hnot)

/-- Every tree that the parser returns for a rule is an attempt at it. -/
theorem Rule.parse_attempt (depth : Nat) : AttemptTo depth := by
  induction depth with
  | zero =>
      intro name stack certain state _ _ hdeep
      exact absurd hdeep (by unfold Deep Phrase.need; omega)
  | succ depth ih =>
      intro name stack certain state heof hstarts hdeep
      have hneed : Deep depth (name.body.need certain) state := by
        have hle := name.need_body_le certain
        unfold Deep Phrase.need at *
        omega
      have hbody := Phrase.run_attempts ih stack name.body .empty certain heof
        name.is_predictive_body name.is_end_free_body_or_ends
        (fun hcertain => (name.starts_with_body _).trans (hstarts hcertain)) hneed
      exact hbody.close state.current stack

end Runs

/-- The tree of any text is an attempt at the rule it was read by. -/
theorem Parse.attempt_of_source (entry : Rule) (source : String) :
    Attempt false (.rule entry) true [(Parse.ofSource entry source).tree] :=
  Rule.parse_attempt _ entry [] false _ (Lexing.kind_eof_of_source source)
    (fun h => absurd h Bool.false_ne_true) (deep_start (entry.need_lt false) _ _)

end Little
