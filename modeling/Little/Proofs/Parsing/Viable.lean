import Little.Proofs.Grammar.Viable
import Little.Proofs.Parsing.Faults

/-!
# What has been passed before the first fault

Up to the first fault every token passed fits: the tokens passed can be completed to something that
the phrase stands for (`Phrase.run_begins`, `Rule.parse_begins`). Where parts were read without a
fault the tokens passed derive from them (`Phrase.run_derives`), and for the part in which the first
fault is noted, and all parts behind it, there is always something that they stand for. Whatever is
done about a fault, it is the first one that counts (`State.faultless`).
-/

namespace Little

namespace State

/-- How many tokens had been passed before anything was wrong. -/
def faultless (state : State) : Nat :=
  match state.faults with
  | [] => state.index
  | fault :: _ => fault.index

variable {state next : State}

theorem faultless_of_nil (h : state.faults = []) : state.faultless = state.index := by
  unfold faultless
  rw [h]

/-- The first fault stays the first. -/
theorem faultless_of_append {later : List Fault} (h : next.faults = state.faults ++ later)
    (hfaults : state.faults ≠ []) : next.faultless = state.faultless := by
  obtain ⟨fault, faults, hcons⟩ := List.exists_cons_of_ne_nil hfaults
  unfold faultless
  rw [h, hcons]
  rfl

/-- A first fault is noted at the token in view. -/
theorem faultless_report (h : state.Honest) (problem : Problem) :
    (state.report problem).faultless = state.faultless := by
  obtain ⟨later, hfaults, hindex⟩ := state.exists_report problem
  cases hnone : state.faults with
  | nil =>
      have hne := faults_report_ne_nil h problem
      rw [hnone, List.nil_append] at hfaults
      rw [hfaults] at hne
      obtain ⟨fault, faults, rfl⟩ := List.exists_cons_of_ne_nil hne
      rw [faultless_of_nil hnone, faultless, hfaults]
      exact hindex fault List.mem_cons_self
  | cons fault faults => exact faultless_of_append hfaults (hnone ▸ List.cons_ne_nil _ _)

end State

theorem Moves.faultless_eq {state next : State} (h : Moves state next)
    (hfaults : state.faults ≠ []) : next.faultless = state.faultless := by
  obtain ⟨later, happend⟩ := h.faults_eq_append
  exact State.faultless_of_append happend hfaults

namespace State

variable {state : State}

theorem faultless_delete (h : state.Honest) (expected : List Kind) :
    (state.delete expected).faultless = state.faultless := by
  have hfaults : (state.delete expected).faults =
      (state.report (.extraneous expected)).faults ++ [] := by
    rw [List.append_nil, delete, settle, faults_advance]
  rw [faultless_of_append hfaults (faults_report_ne_nil h _), faultless_report h]

/-- Where the token in view is not the one expected, nothing more is passed without a fault. -/
theorem faultless_expect {kinds : List Kind} {conjured : Option Kind} {site follow : Phrase}
    {stack : List Phrase} (h : state.Honest) (hkind : state.current.kind ∉ kinds) :
    (state.expect kinds conjured site follow stack).state.faultless = state.faultless := by
  have hlook : state.lookAhead.Honest := h
  rw [expect, if_neg (by simpa using hkind)]
  dsimp only
  split
  · have hmoves : Moves (state.lookAhead.delete kinds) (state.lookAhead.delete kinds).accept :=
      .single (.accept _)
    rw [hmoves.faultless_eq (faults_delete_ne_nil hlook kinds), faultless_delete hlook]
    rfl
  · split
    · exact faultless_report hlook _
    · rfl

theorem faultless_sync (h : state.Honest) (site : Phrase) :
    (state.sync site).state.faultless = state.faultless := by
  have hlook : state.lookAhead.Honest := h
  unfold sync
  split
  · rfl
  · dsimp only
    split
    · exact faultless_delete hlook _
    · rfl

theorem faultless_recover (h : state.Honest) (site : Site) (stack : List Phrase) :
    (state.recover site stack).2.faultless = state.faultless := by
  have hmoves : Moves (state.report (.mismatched site.left.firstKinds))
      (state.recover site stack).2 :=
    ((unstall_moves site _).tail (.stall _ site)).trans
      (skip_while_moves _ fun kind => !stack.any (·.startsWith kind))
  rw [hmoves.faultless_eq (faults_report_ne_nil h _), faultless_report h]

end State

/-- Before a token is passed the first fault can only be one at the token in view. -/
theorem Moves.faultless_of_ahead {state next : State} (h : Moves state next)
    (hahead : next.ahead = state.ahead) (hfaults : state.faults = []) :
    next.faultless = state.index := by
  have htotal := h.total_eq
  obtain ⟨-, later, happend, hbetween⟩ := h.exists_later
  rw [hahead, Nat.add_right_cancel_iff] at htotal
  rw [hfaults, List.nil_append] at happend
  cases later with
  | nil => rw [State.faultless_of_nil happend, htotal]
  | cons fault later =>
      have hfault := hbetween fault List.mem_cons_self
      rw [State.faultless, happend]
      exact Nat.le_antisymm (htotal ▸ hfault.2) hfault.1

/-- What is not quiet decides what has been passed before anything was wrong. -/
theorem Progress.faultless_and_then {progress : Progress} {next : State → Progress}
    (h : ¬ progress.Quiet) (hmoves : ∀ state, Moves state (next state).state) :
    (progress.andThen next).state.faultless = progress.state.faultless := by
  unfold andThen
  split
  · rfl
  · next hstuck => exact (hmoves progress.state).faultless_eq fun hfaults => h ⟨hfaults, hstuck⟩

/-- `Begins phrase state next` says that what was passed from `state` on before anything was wrong
is viable for the phrase. -/
def Begins (phrase : Phrase) (state next : State) : Prop :=
  ∃ front, front <+: state.ahead ∧ state.index + front.length = next.faultless ∧
    Viable phrase front

namespace Begins

variable {phrase first second body : Phrase} {state middle next : State}

/-- Where nothing has been passed before something was wrong. -/
theorem nil (h : next.faultless = state.index) (hviable : Viable phrase []) :
    Begins phrase state next :=
  ⟨[], List.nil_prefix, h.symm, hviable⟩

/-- Where nothing is done. -/
theorem stay (hfaults : state.faults = []) (hviable : Viable phrase []) :
    Begins phrase state state :=
  .nil (State.faultless_of_nil hfaults) hviable

/-- What was read before counts with what has been passed since. -/
theorem behind {other : Phrase} {tokens : List Token} (h : Begins phrase middle next)
    (hmoves : Moves state middle) (hahead : state.ahead = tokens ++ middle.ahead)
    (hviable : ∀ front, Viable phrase front → Viable other (tokens ++ front)) :
    Begins other state next := by
  obtain ⟨front, ⟨rest, hrest⟩, hindex, hfront⟩ := h
  have htotal := hmoves.total_eq
  rw [hahead, List.length_append] at htotal
  refine ⟨tokens ++ front, ⟨rest, ?_⟩, ?_, hviable front hfront⟩
  · rw [hahead, ← hrest, List.append_assoc]
  · rw [← hindex, List.length_append]
    omega

end Begins

/-- What has been passed before the first fault in reading a rule to the depth given is viable for
the rule. -/
def BeginsTo (depth : Nat) : Prop :=
  ∀ (rule : Rule) (stack : List Phrase) (state : State), rule ≠ .program →
    Fit depth (.rule rule) state → state.faults = [] →
    Begins (.rule rule) state (rule.parse depth stack state).2

section Runs

variable {depth : Nat} {rule : Rule}

theorem expect_begins {kinds : List Kind} {conjured : Option Kind} {site follow phrase : Phrase}
    {stack : List Phrase} {state : State} (hhonest : state.Honest) (hfaults : state.faults = [])
    (hviable : Viable phrase [])
    (htoken : ∀ token : Token, token.kind ∈ kinds → Viable phrase [token]) :
    Begins phrase state (state.expect kinds conjured site follow stack).state := by
  by_cases hkind : state.current.kind ∈ kinds
  · rw [State.expect_fits hkind]
    have hnone : state.accept.faults = [] := by rw [State.faults_accept, hfaults]
    cases hahead : state.ahead with
    | nil =>
        refine .nil ?_ hviable
        rw [State.faultless_of_nil hnone]
        simp only [State.accept, State.settle, State.advance, hahead]
    | cons token rest =>
        rw [State.current_of_ahead hahead] at hkind
        refine ⟨[token], ⟨rest, hahead.symm⟩, ?_, htoken token hkind⟩
        rw [State.faultless_of_nil hnone]
        simp only [State.accept, State.settle, State.advance, hahead, List.length_singleton]
  · refine .nil ?_ hviable
    rw [State.faultless_expect hhonest hkind, State.faultless_of_nil hfaults]

/-- Before a choice nothing is passed without a fault. -/
theorem Begins.of_sync {phrase site : Phrase} {state : State} {next : State → Progress}
    (hhonest : state.Honest) (hfaults : state.faults = []) (hviable : Viable phrase [])
    (hmoves : ∀ state, Moves state (next state).state)
    (h : Begins phrase state (next state).state) :
    Begins phrase state ((state.sync site).andThen next).state := by
  by_cases hquiet : (state.sync site).Quiet
  · rw [State.sync_quiet hhonest hquiet]
    exact h
  · refine .nil ?_ hviable
    rw [Progress.faultless_and_then hquiet hmoves, State.faultless_sync hhonest,
      State.faultless_of_nil hfaults]

theorem repeat_while_begins {body : Phrase} {step : State → Progress}
    (hnullable : body.isNullable = false) (hmoves : ∀ state, Moves state (step state).state)
    (hreads : ∀ state, Fit depth body state → (step state).Quiet →
      Reads body state (step state).state (step state).made)
    (hstep : ∀ state, Fit depth body state → state.faults = [] →
      Begins body state (step state).state)
    (rounds : Nat) {state : State} (hfit : Fit depth body state) (hfaults : state.faults = []) :
    Begins (.star body) state (repeatWhile body.startsWith step rounds state).state := by
  induction rounds generalizing state with
  | zero => exact .stay hfaults Derives.starNil.viable
  | succ rounds ih =>
      unfold repeatWhile
      split
      · by_cases hquiet : (step state).Quiet
        · obtain ⟨tokens, hahead, hround⟩ := hreads state hfit hquiet
          have hnext := hfit.of_moves (hmoves state)
            (hfit.deep.of_passed hahead (hround.ne_nil hnullable) body)
          rw [Progress.and_then_of_not_stuck hquiet.2]
          exact (ih hnext hquiet.1).behind (hmoves state) hahead
            fun _ hfront => .star_second hround hfront
        · obtain ⟨front, hbegins, hindex, hfront⟩ := hstep state hfit hfaults
          refine ⟨front, hbegins, ?_, hfront.star_first⟩
          rw [hindex, Progress.faultless_and_then hquiet (repeat_while_moves hmoves rounds)]
      · exact .stay hfaults Derives.starNil.viable

/-- What is passed for a phrase before anything is wrong is viable for the phrase. -/
theorem Phrase.run_begins (hcall : BeginsTo depth) (stack : List Phrase) (phrase follow : Phrase)
    (hends : phrase.isEndFree = true ∨ phrase.ends = true)
    (hproductive : phrase.isProductive = true) (hfilled : phrase.isFilled = true)
    (hpredictive : phrase.isPredictive rule follow = true) {state : State}
    (hfit : Fit depth phrase state) (hfaults : state.faults = []) :
    Begins phrase state (phrase.run (Rule.parse depth) stack depth follow state).state := by
  induction phrase using choice_induction generalizing follow state with
  | empty => exact .stay hfaults Derives.empty.viable
  | token kind =>
      exact expect_begins hfit.honest hfaults (viable_nil hfilled) fun token hkind =>
        (Derives.token token (List.mem_singleton.1 hkind)).viable
  | oneOf kinds =>
      exact expect_begins hfit.honest hfaults (viable_nil hfilled) fun token hkind =>
        (Derives.oneOf token hkind).viable
  | rule name =>
      have hname : name ≠ .program := by
        simpa [isEndFree] using hends.resolve_right Bool.false_ne_true
      exact hcall name (follow :: stack) state hname hfit hfaults
  | seq first second ih ih' =>
      simp only [isProductive, isFilled, isPredictive, Bool.and_eq_true]
        at hproductive hfilled hpredictive
      have hfree := is_end_free_of_seq hends
      have hmoves := reading_moves depth stack first (.seq second follow) state
      have hstart : Fit depth first state := hfit.of_moves .refl hfit.deep.first
      rw [run]
      by_cases hquiet :
          (first.run (Rule.parse depth) stack depth (.seq second follow) state).Quiet
      · obtain ⟨tokens, hahead, hfirst⟩ := Phrase.run_derives Rule.parse_derives stack first
          (.seq second follow) hfree.1 hproductive.1 hpredictive.1 hstart hquiet
        have hnext := hfit.of_moves hmoves (hfit.deep.second hahead hfirst)
        rw [Progress.and_then_of_not_stuck hquiet.2]
        have hsecond := ih' follow hfree.2 hproductive.2 hfilled.2 hpredictive.2 hnext hquiet.1
        exact hsecond.behind hmoves hahead fun _ hfront => .seq_second hfirst hfront
      · obtain ⟨front, hbegins, hindex, hfront⟩ := ih (.seq second follow) (.inl hfree.1)
          hproductive.1 hfilled.1 hpredictive.1 hstart hfaults
        refine ⟨front, hbegins, ?_, hfront.seq_first (viable_nil hfilled.2)⟩
        rw [hindex, Progress.faultless_and_then hquiet (reading_moves depth stack second follow)]
  | star body ih =>
      simp only [isProductive, isPredictive, Bool.and_eq_true, Bool.not_eq_true']
        at hproductive hpredictive
      have hfree : body.isEndFree = true := hends.resolve_right Bool.false_ne_true
      exact repeat_while_begins hproductive.1 (reading_moves depth stack body _)
        (fun state hfit hquiet => Phrase.run_derives Rule.parse_derives stack body _ hfree
          hproductive.2 hpredictive.2 hfit hquiet)
        (fun state hfit hfaults => ih _ (.inl hfree) hproductive.2 hfilled hpredictive.2 hfit
          hfaults) depth (hfit.of_moves .refl hfit.deep) hfaults
  | choice phrase hchoice ih =>
      have hfree := is_end_free_of_choice hchoice hends
      have hviable := viable_nil hfilled
      obtain ⟨next, hrun, hchosen⟩ := run_choice hchoice hpredictive depth stack state
      rw [hrun]
      refine .of_sync hfit.honest hfaults hviable (fun state => (hchosen state).moves) ?_
      have hprogress := hchosen state
      generalize next state = progress at hprogress ⊢
      cases hprogress with
      | @branch body after hmem hmoves hahead _ =>
          have hindex := hmoves.faultless_of_ahead hahead hfaults
          by_cases hnone : after.faults = []
          · have hdeep : Deep depth body.rank after :=
              hfit.deep.mono (Nat.le_of_eq (congrArg List.length hahead)) (rank_of_branch hmem)
            have hbody := ih body hmem follow (.inl (is_end_free_of_branch hmem hfree))
              (is_productive_of_branch hmem hproductive) (is_filled_of_branch hmem hfilled)
              (is_predictive_of_branch hmem hpredictive) (hfit.of_moves hmoves hdeep) hnone
            have hsame : state.ahead = [] ++ after.ahead := hahead.symm
            exact hbody.behind hmoves hsame fun _ hfront => hfront.of_branch hmem
          · have hrest := reading_moves depth stack body follow after
            exact .nil ((hrest.faultless_eq hnone).trans hindex) hviable
      | nothing | stuck => exact .stay hfaults hviable

/-- What is passed for a rule before anything is wrong is viable for the rule, also where the rule
is given up. -/
theorem Begins.close {state : State} {progress : Progress}
    (h : Begins rule.body state progress.state) (hhonest : progress.state.Honest) (token : Token)
    (stack : List Phrase) : Begins (.rule rule) state (progress.close rule token stack).2 := by
  obtain ⟨front, hbegins, hindex, hfront⟩ := h
  refine ⟨front, hbegins, ?_, hfront.rule⟩
  unfold Progress.close
  split
  · exact hindex
  · exact hindex.trans (State.faultless_recover hhonest _ stack).symm

theorem Rule.parse_succ_begins (hcall : BeginsTo depth) (rule : Rule) (stack : List Phrase)
    {state : State} (hfit : Fit (depth + 1) (.rule rule) state) (hfaults : state.faults = []) :
    Begins (.rule rule) state (rule.parse (depth + 1) stack state).2 := by
  have hmoves := reading_moves depth stack rule.body .empty state
  have hbody := Phrase.run_begins hcall stack rule.body .empty rule.is_end_free_body_or_ends
    rule.is_productive_body rule.is_filled_body rule.is_predictive_body hfit.body hfaults
  exact hbody.close (hmoves.honest hfit.honest) state.current stack

theorem Rule.parse_begins (depth : Nat) : BeginsTo depth := by
  induction depth with
  | zero =>
      intro rule stack state _ hfit
      exact absurd hfit.deep Deep.not_rule_zero
  | succ depth ih =>
      intro rule stack state _ hfit hfaults
      exact Rule.parse_succ_begins ih rule stack hfit hfaults

/-- Whatever rule a text is read by, the tokens before the first fault are the first ones of a
sentence of the rule. -/
theorem Parse.viable_before_fault (entry : Rule) (lexing : Lexing) (heof : lexing.eof.kind = .eof)
    {fault : Fault} (hfault : (lastState entry lexing).faults.head? = some fault) :
    Viable (.rule entry) (lexing.tokens.take fault.index) := by
  obtain ⟨depth, hdepth⟩ := depth_bound_succ lexing.tokens.length
  have hfit := fit_start entry lexing.tokens heof
  rw [hdepth] at hfit
  obtain ⟨front, ⟨rest, happend⟩, hindex, hviable⟩ :=
    Rule.parse_succ_begins (Rule.parse_begins depth) entry [] hfit rfl
  rw [lastState, hdepth] at hfault
  obtain ⟨faults, hfaults⟩ := List.head?_eq_some_iff.1 hfault
  have htokens : lexing.tokens = front ++ rest := happend.symm
  have hlength : 0 + front.length = fault.index := by rwa [State.faultless, hfaults] at hindex
  rw [Nat.zero_add] at hlength
  rw [htokens, ← hlength, List.take_left]
  exact hviable

end Runs

end Little
