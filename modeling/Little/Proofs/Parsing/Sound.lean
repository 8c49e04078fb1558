import Little.Proofs.Parsing.Choice

/-!
# A parse without faults is a derivation

Read `Phrase.run_derives` first: where a phrase was read to its end and no fault was noted, the
trees made are derived from the tokens passed. Every way out of an error notes a fault or was taken
while recovering from one that was noted, so without faults none was taken. The other thing to rule
out is that the bound on the depth of nesting cut a rule or a repetition short: `Deep` says that
the depth left is enough, and each token passed pays for more depth than the rules entered before
the next one cost (`Phrase.rank`).
-/

namespace Little

/-- The depth is enough for the tokens ahead and for `rank` rules entered before the next one. -/
def Deep (depth rank : Nat) (state : State) : Prop :=
  Rule.all.length * state.ahead.length + rank ≤ depth

/-- Once a token has been passed the depth is enough for any phrase. -/
theorem Deep.of_lt {depth rank other : Nat} {state next : State} (h : Deep depth rank state)
    (hahead : next.ahead.length < state.ahead.length) (hother : other < Rule.all.length) :
    Deep depth other next := by
  have hmul : Rule.all.length * (next.ahead.length + 1) ≤
      Rule.all.length * state.ahead.length := Nat.mul_le_mul_left _ hahead
  rw [Nat.mul_succ] at hmul
  unfold Deep at h ⊢
  omega

theorem Deep.of_passed {depth rank : Nat} {state next : State} {tokens : List Token}
    (h : Deep depth rank state) (hahead : state.ahead = tokens ++ next.ahead)
    (hpassed : tokens ≠ []) (phrase : Phrase) : Deep depth phrase.rank next := by
  refine h.of_lt ?_ phrase.rank_lt
  have hpos := List.length_pos_iff.2 hpassed
  rw [hahead, List.length_append]
  omega

/-- What is deep enough for more tokens and a higher rank is deep enough for fewer and a lower. -/
theorem Deep.mono {depth rank lower : Nat} {state next : State} (h : Deep depth rank state)
    (hahead : next.ahead.length ≤ state.ahead.length) (hrank : lower ≤ rank) :
    Deep depth lower next := by
  have hmul : Rule.all.length * next.ahead.length ≤ Rule.all.length * state.ahead.length :=
    Nat.mul_le_mul_left _ hahead
  unfold Deep at h ⊢
  omega

/-- A phrase behind another one has the depth that the two together had. -/
theorem Deep.second {depth : Nat} {first second : Phrase} {state next : State}
    {tokens : List Token} {made : List Tree} (h : Deep depth (Phrase.seq first second).rank state)
    (hahead : state.ahead = tokens ++ next.ahead) (hfirst : Derives first tokens made) :
    Deep depth second.rank next := by
  cases tokens with
  | nil =>
      exact h.mono (Nat.le_of_eq (by rw [hahead, List.nil_append]))
        (Phrase.rank_second_le hfirst.is_nullable second)
  | cons token tokens => exact h.of_passed hahead (List.cons_ne_nil _ _) second

theorem Deep.first {depth : Nat} {first second : Phrase} {state : State}
    (h : Deep depth (Phrase.seq first second).rank state) : Deep depth first.rank state :=
  h.mono (Nat.le_refl _) (first.rank_first_le second)

/-- Entering a rule takes one step of depth. -/
theorem Deep.body {depth : Nat} {rule : Rule} {state : State}
    (h : Deep (depth + 1) (Phrase.rule rule).rank state) : Deep depth rule.body.rank state := by
  have hrank := rule.rank_body_le
  unfold Deep Phrase.rank at *
  omega

/-- At depth zero no rule can be entered. -/
theorem Deep.not_rule_zero {rule : Rule} {state : State} :
    ¬ Deep 0 (Phrase.rule rule).rank state := by
  unfold Deep Phrase.rank
  omega

/-- Depth enough for a phrase is enough rounds for its repetitions. -/
theorem Deep.length_le {depth rank : Nat} {state : State} (h : Deep depth rank state) :
    state.ahead.length ≤ depth := by
  have hmul : 1 * state.ahead.length ≤ Rule.all.length * state.ahead.length :=
    Nat.mul_le_mul_right _ (by decide)
  unfold Deep at h
  omega

namespace Progress

/-- No fault has been noted and nothing had to be given up. -/
def Quiet (progress : Progress) : Prop := progress.state.faults = [] ∧ progress.stuck = none

/-- What is quiet in the end was quiet in each of its parts. -/
theorem Quiet.and_then {progress : Progress} {next : State → Progress}
    (h : (progress.andThen next).Quiet) (hmoves : ∀ state, Moves state (next state).state) :
    progress.Quiet ∧ (next progress.state).Quiet ∧
      progress.andThen next =
        ⟨(next progress.state).state, progress.made ++ (next progress.state).made, none⟩ := by
  cases hstuck : progress.stuck with
  | some left =>
      have hnone := h.2
      simp [andThen, hstuck] at hnone
  | none =>
      have heq : progress.andThen next =
          { next progress.state with
            made := progress.made ++ (next progress.state).made } := by
        simp only [andThen, hstuck]
      rw [heq] at h
      refine ⟨⟨(hmoves progress.state).faults_eq_nil h.1, hstuck⟩, h, ?_⟩
      rw [heq, ← h.2]

end Progress

namespace State

/-- The token in view is the first of those ahead, unless it is the mark at the end. -/
theorem exists_ahead {state : State} (h : state.current.kind ≠ state.eof.kind) :
    ∃ rest, state.ahead = state.current :: rest := by
  unfold current at h ⊢
  cases hahead : state.ahead with
  | nil => rw [hahead] at h; exact absurd rfl h
  | cons token rest => exact ⟨rest, rfl⟩

theorem ahead_accept {state : State} {token : Token} {rest : List Token}
    (h : state.ahead = token :: rest) : state.accept.ahead = rest := by
  simp only [accept, settle, advance, h]

theorem current_of_ahead {state : State} {token : Token} {rest : List Token}
    (h : state.ahead = token :: rest) : state.current = token := by
  simp only [current, h, List.headD_cons]

theorem current_of_nil {state : State} (h : state.ahead = []) : state.current = state.eof := by
  simp only [current, h, List.headD_nil]

theorem faults_delete_ne_nil {state : State} (h : state.Honest) (expected : List Kind) :
    (state.delete expected).faults ≠ [] := by
  simpa only [delete, settle, faults_advance] using faults_report_ne_nil h _

/-- Where no fault is noted, the token expected was there. -/
theorem expect_quiet {kinds : List Kind} {conjured : Option Kind} {site follow : Phrase}
    {stack : List Phrase} {state : State} (hhonest : state.Honest)
    (h : (state.expect kinds conjured site follow stack).Quiet) :
    state.current.kind ∈ kinds ∧
      state.expect kinds conjured site follow stack =
        ⟨state.accept, [.leaf state.current], none⟩ := by
  have hlook : state.lookAhead.Honest := hhonest
  unfold expect at h ⊢
  split at h
  · next hkind => exact ⟨by simpa using hkind, by rw [if_pos hkind]⟩
  · -- every other way out leaves a fault behind or gives the rule up
    dsimp only at h
    split at h
    · have hfaults := h.1
      simp only [accept, settle, faults_advance] at hfaults
      exact absurd hfaults (faults_delete_ne_nil hlook kinds)
    · split at h
      · exact absurd h.1 (faults_report_ne_nil hlook _)
      · exact absurd h.2 (Option.some_ne_none _)

/-- Where no fault is noted, nothing was done before a choice. -/
theorem sync_quiet {site : Phrase} {state : State} (hhonest : state.Honest)
    (h : (state.sync site).Quiet) : state.sync site = ⟨state, [], none⟩ := by
  have hlook : state.lookAhead.Honest := hhonest
  unfold sync at h ⊢
  split at h
  · next hfits => rw [if_pos hfits]
  · dsimp only at h
    split at h
    · exact absurd h.1 (faults_delete_ne_nil hlook _)
    · exact absurd h.2 (Option.some_ne_none _)

/-- Where no fault is noted in a choice, it is as if the choice had been made at once. -/
theorem sync_and_then_quiet {site : Phrase} {state : State} {next : State → Progress}
    (hhonest : state.Honest) (h : ((state.sync site).andThen next).Quiet)
    (hmoves : ∀ state, Moves state (next state).state) :
    (next state).Quiet ∧ (state.sync site).andThen next = next state := by
  obtain ⟨hsync, hnext, heq⟩ := h.and_then hmoves
  have hsame := sync_quiet hhonest hsync
  rw [hsame] at hnext heq ⊢
  exact ⟨hnext, by rw [heq, List.nil_append, ← hnext.2]⟩

/-- A rule that is given up leaves a fault behind. -/
theorem faults_recover_ne_nil {state : State} (h : state.Honest) (site : Site)
    (stack : List Phrase) : (state.recover site stack).2.faults ≠ [] := by
  intro hnone
  -- the fault is noted before anything is passed, and is never taken back
  have hmoves : Moves (state.report (.mismatched site.left.firstKinds))
      (state.recover site stack).2 := by
    exact ((unstall_moves site _).tail (.stall _ site)).trans
      (skip_while_moves _ fun kind => !stack.any (·.startsWith kind))
  exact faults_report_ne_nil h _ (hmoves.faults_eq_nil hnone)

end State

/-- `Reads phrase state next made` says that from `state` to `next` tokens were passed that derive
the trees `made` from the phrase. -/
def Reads (phrase : Phrase) (state next : State) (made : List Tree) : Prop :=
  ∃ tokens, state.ahead = tokens ++ next.ahead ∧ Derives phrase tokens made

theorem Reads.nil {phrase : Phrase} {state : State} (h : Derives phrase [] []) :
    Reads phrase state state [] :=
  ⟨[], rfl, h⟩

/-- What is read for a right-hand side is read for its rule, as a node. -/
theorem Reads.node {rule : Rule} {state next : State} {made : List Tree}
    (h : Reads rule.body state next made) (start : Token) (stop : Option Token) :
    Reads (.rule rule) state next [.node rule start stop made] := by
  obtain ⟨tokens, hahead, hderives⟩ := h
  exact ⟨tokens, hahead, .rule start stop hderives⟩

/-- A state from which a phrase can be read soundly: it is honest, its end mark is one, and the
depth is enough for the phrase. -/
structure Fit (depth : Nat) (phrase : Phrase) (state : State) : Prop where
  honest : state.Honest
  eof : state.eof.kind = .eof
  deep : Deep depth phrase.rank state

theorem Fit.of_moves {depth : Nat} {phrase other : Phrase} {state next : State}
    (h : Fit depth phrase state) (hmoves : Moves state next)
    (hdeep : Deep depth other.rank next) : Fit depth other next :=
  ⟨hmoves.honest h.honest, hmoves.eof_eq ▸ h.eof, hdeep⟩

/-- Reading a rule to the depth given is sound. -/
def SoundTo (depth : Nat) : Prop :=
  ∀ (rule : Rule) (stack : List Phrase) (state : State), rule ≠ .program →
    Fit depth (.rule rule) state → (rule.parse depth stack state).2.faults = [] →
    Reads (.rule rule) state (rule.parse depth stack state).2 [(rule.parse depth stack state).1]

section Runs

variable {depth : Nat} {rule : Rule}

/-- A token that was expected and is not the mark at the end was passed. -/
theorem reads_expect {kinds : List Kind} {conjured : Option Kind} {site follow : Phrase}
    {stack : List Phrase} {state : State} (hhonest : state.Honest) (heof : state.eof.kind = .eof)
    (hfree : Kind.eof ∉ kinds) (h : (state.expect kinds conjured site follow stack).Quiet) :
    ∃ token, token.kind ∈ kinds ∧
      state.ahead = [token] ++ (state.expect kinds conjured site follow stack).state.ahead ∧
      (state.expect kinds conjured site follow stack).made = [.leaf token] := by
  obtain ⟨hkind, hexpect⟩ := State.expect_quiet hhonest h
  have hcurrent : state.current.kind ≠ state.eof.kind := by
    rw [heof]
    exact fun hend => hfree (hend ▸ hkind)
  obtain ⟨rest, hahead⟩ := State.exists_ahead hcurrent
  exact ⟨state.current, hkind, by rw [hexpect, State.ahead_accept hahead]; exact hahead,
    by rw [hexpect]⟩

/-- A repetition is read soundly if each of its rounds is. Each round passes a token, so as many
rounds as there are tokens ahead are enough. -/
theorem repeat_while_derives {body : Phrase} {step : State → Progress}
    (hnullable : body.isNullable = false) (hmoves : ∀ state, Moves state (step state).state)
    (hstep : ∀ state, Fit depth body state → (step state).Quiet →
      Reads body state (step state).state (step state).made)
    (rounds : Nat) {state : State} (hfit : Fit depth body state)
    (hrounds : state.ahead.length ≤ rounds)
    (h : (repeatWhile body.startsWith step rounds state).Quiet) :
    Reads (.star body) state (repeatWhile body.startsWith step rounds state).state
      (repeatWhile body.startsWith step rounds state).made := by
  induction rounds generalizing state with
  | zero => exact ⟨[], rfl, .starNil⟩
  | succ rounds ih =>
      unfold repeatWhile at h ⊢
      split at h
      · next henters =>
        rw [if_pos henters]
        obtain ⟨hfirst, hrest, heq⟩ := h.and_then (repeat_while_moves hmoves rounds)
        obtain ⟨front, hahead, hfront⟩ := hstep state hfit hfirst
        -- the round has passed a token, so one round less is enough for the rest
        have hpassed := hfront.ne_nil hnullable
        have hless : (step state).state.ahead.length ≤ rounds := by
          have hlength := congrArg List.length hahead
          have hpos := List.length_pos_iff.2 hpassed
          rw [List.length_append] at hlength
          omega
        have hnext := hfit.of_moves (hmoves state) (hfit.deep.of_passed hahead hpassed body)
        obtain ⟨back, hback, hstar⟩ := ih hnext hless hrest
        rw [heq]
        exact ⟨front ++ back, by rw [hahead, hback, List.append_assoc], .starCons hfront hstar⟩
      · next hleaves =>
        rw [if_neg hleaves]
        exact ⟨[], rfl, .starNil⟩

/-- Where a phrase was read to its end without a fault, the tokens passed derive the trees made. -/
theorem Phrase.run_derives (hcall : SoundTo depth) (stack : List Phrase) (phrase follow : Phrase)
    (hfree : phrase.isEndFree = true) (hproductive : phrase.isProductive = true)
    (hpredictive : phrase.isPredictive rule follow = true) {state : State}
    (hfit : Fit depth phrase state)
    (h : (phrase.run (Rule.parse depth) stack depth follow state).Quiet) :
    Reads phrase state (phrase.run (Rule.parse depth) stack depth follow state).state
      (phrase.run (Rule.parse depth) stack depth follow state).made := by
  induction phrase using choice_induction generalizing follow state with
  | empty => exact ⟨[], rfl, .empty⟩
  | token kind =>
      have hnot : Kind.eof ∉ [kind] := by
        intro hend
        rw [isEndFree, ← List.mem_singleton.1 hend] at hfree
        exact absurd hfree (by decide)
      obtain ⟨token, hkind, hahead, hmade⟩ := reads_expect hfit.honest hfit.eof hnot h
      refine ⟨[token], hahead, ?_⟩
      simp only [run, hmade]
      exact .token token (List.mem_singleton.1 hkind)
  | oneOf kinds =>
      have hnot : Kind.eof ∉ kinds := by
        simpa [isEndFree] using hfree
      obtain ⟨token, hkind, hahead, hmade⟩ := reads_expect hfit.honest hfit.eof hnot h
      refine ⟨[token], hahead, ?_⟩
      simp only [run, hmade]
      exact .oneOf token hkind
  | rule name =>
      exact hcall name (follow :: stack) state (by simpa [isEndFree] using hfree) hfit h.1
  | seq first second ih ih' =>
      simp only [isEndFree, isProductive, isPredictive, Bool.and_eq_true]
        at hfree hproductive hpredictive
      obtain ⟨hfirst, hsecond, heq⟩ :=
        Progress.Quiet.and_then h (reading_moves depth stack second follow)
      have hstart : Fit depth first state := hfit.of_moves .refl hfit.deep.first
      obtain ⟨front, hahead, hfront⟩ := ih _ hfree.1 hproductive.1 hpredictive.1 hstart hfirst
      have hnext := hfit.of_moves (reading_moves depth stack first _ state)
        (hfit.deep.second hahead hfront)
      obtain ⟨back, hback, hrest⟩ :=
        ih' follow hfree.2 hproductive.2 hpredictive.2 hnext hsecond
      rw [run, heq]
      exact ⟨front ++ back, by rw [hahead, hback, List.append_assoc], .seq hfront hrest⟩
  | star body ih =>
      simp only [isProductive, isPredictive, Bool.and_eq_true, Bool.not_eq_true']
        at hproductive hpredictive
      exact repeat_while_derives hproductive.1 (reading_moves depth stack body _)
        (fun state hfit hquiet => ih _ hfree hproductive.2 hpredictive.2 hfit hquiet) depth
        (hfit.of_moves .refl hfit.deep) hfit.deep.length_le h
  | choice phrase hchoice ih =>
      obtain ⟨next, hrun, hchosen⟩ := run_choice hchoice hpredictive depth stack state
      rw [hrun] at h ⊢
      obtain ⟨hquiet, heq⟩ :=
        State.sync_and_then_quiet hfit.honest h fun state => (hchosen state).moves
      rw [heq]
      have hprogress := hchosen state
      generalize next state = progress at hprogress hquiet ⊢
      cases hprogress with
      | @branch body after hmem hmoves hahead _ =>
          have hdeep : Deep depth body.rank after :=
            hfit.deep.mono (Nat.le_of_eq (congrArg List.length hahead)) (rank_of_branch hmem)
          obtain ⟨tokens, htokens, hderives⟩ := ih body hmem follow
            (is_end_free_of_branch hmem hfree) (is_productive_of_branch hmem hproductive)
            (is_predictive_of_branch hmem hpredictive) (hfit.of_moves hmoves hdeep) hquiet
          exact ⟨tokens, hahead ▸ htokens, hderives.of_branch hmem⟩
      | nothing hnothing => exact .nil hnothing
      | stuck => exact absurd hquiet.2 (Option.some_ne_none _)

/-- A rule that was read without a fault is the node of what its right-hand side was read as. -/
theorem Rule.parse_quiet {rule : Rule} {stack : List Phrase} {state : State}
    (hhonest : state.Honest) (hfaults : (rule.parse (depth + 1) stack state).2.faults = []) :
    (rule.body.run (Rule.parse depth) stack depth .empty state).Quiet ∧
      ∃ start stop, rule.parse (depth + 1) stack state =
        (.node rule start stop (rule.body.run (Rule.parse depth) stack depth .empty state).made,
          (rule.body.run (Rule.parse depth) stack depth .empty state).state) := by
  have hmoves := reading_moves depth stack rule.body .empty state
  rw [Rule.parse] at hfaults ⊢
  change (Progress.close (rule.body.run (Rule.parse depth) stack depth .empty state) rule
    state.current stack).2.faults = [] at hfaults
  show _ ∧ ∃ start stop, Progress.close (rule.body.run (Rule.parse depth) stack depth .empty
    state) rule state.current stack = _
  generalize rule.body.run (Rule.parse depth) stack depth .empty state = progress at *
  unfold Progress.close at hfaults ⊢
  cases hstuck : progress.stuck with
  | some left =>
      -- giving up the rule would have left a fault behind
      simp only [hstuck] at hfaults
      exact absurd hfaults (State.faults_recover_ne_nil (hmoves.honest hhonest) _ _)
  | none =>
      simp only [hstuck] at hfaults
      exact ⟨⟨hfaults, hstuck⟩, _, _, rfl⟩

theorem Fit.body {rule : Rule} {state : State} (h : Fit (depth + 1) (.rule rule) state) :
    Fit depth rule.body state :=
  ⟨h.honest, h.eof, h.deep.body⟩

/-- A rule that was read without a fault derives its tree from the tokens passed. -/
theorem Rule.parse_derives : SoundTo depth := by
  induction depth with
  | zero =>
      intro rule stack state _ hfit
      exact absurd hfit.deep Deep.not_rule_zero
  | succ depth ih =>
      intro rule stack state hrule hfit hfaults
      obtain ⟨hquiet, start, stop, heq⟩ := Rule.parse_quiet hfit.honest hfaults
      have hbody := Phrase.run_derives ih stack rule.body .empty (Rule.is_end_free_body hrule)
        rule.is_productive_body rule.is_predictive_body hfit.body hquiet
      rw [heq]
      exact hbody.node start stop

/-- Where a phrase that ends with the end mark was read without a fault, all tokens were passed
and the end mark after them. -/
theorem Phrase.run_derives_end (stack : List Phrase) (phrase follow : Phrase)
    (hends : phrase.ends = true) (hproductive : phrase.isProductive = true)
    (hpredictive : phrase.isPredictive rule follow = true) {state : State}
    (hfit : Fit depth phrase state) (htokens : ∀ token ∈ state.ahead, token.kind ≠ .eof)
    (h : (phrase.run (Rule.parse depth) stack depth follow state).Quiet) :
    (phrase.run (Rule.parse depth) stack depth follow state).state.ahead = [] ∧
      Derives phrase (state.ahead ++ [state.eof])
        (phrase.run (Rule.parse depth) stack depth follow state).made := by
  induction phrase generalizing follow state with
  | token kind =>
      obtain rfl : kind = .eof := by simpa [ends] using hends
      obtain ⟨hkind, hexpect⟩ := State.expect_quiet hfit.honest h
      rw [List.mem_singleton] at hkind
      cases hahead : state.ahead with
      | nil =>
          rw [run, hexpect, State.current_of_nil hahead]
          refine ⟨?_, .token state.eof hfit.eof⟩
          simp only [State.accept, State.settle, State.advance, hahead]
      | cons token rest =>
          rw [State.current_of_ahead hahead] at hkind
          exact absurd hkind (htokens token (hahead ▸ List.mem_cons_self))
  | seq first second ih ih' =>
      simp only [ends, isProductive, isPredictive, Bool.and_eq_true]
        at hends hproductive hpredictive
      obtain ⟨hfirst, hsecond, heq⟩ :=
        Progress.Quiet.and_then h (reading_moves depth stack second follow)
      obtain ⟨front, hahead, hfront⟩ := Phrase.run_derives Rule.parse_derives stack first
        (.seq second follow) hends.1 hproductive.1 hpredictive.1
        (hfit.of_moves .refl hfit.deep.first) hfirst
      have hmoves := reading_moves depth stack first (.seq second follow) state
      have hnext := hfit.of_moves hmoves (hfit.deep.second hahead hfront)
      obtain ⟨hdone, hrest⟩ := ih' follow hends.2 hproductive.2 hpredictive.2 hnext
        (fun token hmem => htokens token (by rw [hahead]; exact List.mem_append_right _ hmem))
        hsecond
      rw [run, heq]
      refine ⟨hdone, ?_⟩
      rw [hahead, List.append_assoc, ← hmoves.eof_eq]
      exact .seq hfront hrest
  | empty | oneOf | rule | alt | opt | star | fork => exact absurd hends Bool.false_ne_true

/-- A program that was read without a fault derives its tree from all tokens and the end mark. -/
theorem Rule.parse_program_derives {stack : List Phrase} {state : State}
    (hfit : Fit (depth + 1) (.rule .program) state)
    (htokens : ∀ token ∈ state.ahead, token.kind ≠ .eof)
    (hfaults : (Rule.program.parse (depth + 1) stack state).2.faults = []) :
    (Rule.program.parse (depth + 1) stack state).2.ahead = [] ∧
      (Rule.program.parse (depth + 1) stack state).1.IsDerivation .program
        (state.ahead ++ [state.eof]) := by
  obtain ⟨hquiet, start, stop, heq⟩ := Rule.parse_quiet hfit.honest hfaults
  obtain ⟨hdone, hderives⟩ := Phrase.run_derives_end stack Rule.program.body .empty
    Rule.ends_body_program Rule.program.is_productive_body Rule.program.is_predictive_body
    hfit.body htokens hquiet
  rw [heq]
  exact ⟨hdone, .rule start stop hderives⟩

end Runs

end Little
