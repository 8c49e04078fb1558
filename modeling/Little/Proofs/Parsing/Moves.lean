import Mathlib.Logic.Relation
import Little.Parsing

/-!
# What the parser can do to its state

Whatever it reads, the parser changes its state by the few moves of `Move`, one after the other
(`Rule.parse_moves`). So what every move keeps, every parse keeps (`Moves.keep`). Kept that way
here: faults are only added (`Moves.faults_eq_append`), nobody is recovering from a fault that was
not noted (`Moves.honest`), and tokens passed and tokens ahead are together all tokens
(`Moves.counts`).
-/

namespace Little

/-- One move of the parser. -/
inductive Move : State → State → Prop where
  | lookAhead (state : State) : Move state state.lookAhead
  | accept (state : State) : Move state state.accept
  | report (state : State) (problem : Problem) : Move state (state.report problem)
  | delete (state : State) (expected : List Kind) : Move state (state.delete expected)
  | pass (state : State) : Move state state.advance
  | stall (state : State) (site : Site) :
      Move state
        { state with stalledAt := some state.index, stalledIn := state.stalledIn ++ [site] }

/-- Any number of moves. -/
abbrev Moves : State → State → Prop := Relation.ReflTransGen Move

namespace State

theorem expect_moves (kinds : List Kind) (conjured : Option Kind) (site follow : Phrase)
    (stack : List Phrase) (state : State) :
    Moves state (state.expect kinds conjured site follow stack).state := by
  unfold expect
  split
  · exact .single (.accept state)
  · dsimp only
    split
    · exact ((Relation.ReflTransGen.single (.lookAhead state)).tail (.delete _ kinds)).tail
        (.accept _)
    · split
      · exact (Relation.ReflTransGen.single (.lookAhead state)).tail (.report _ _)
      · exact .single (.lookAhead state)

theorem sync_moves (site : Phrase) (state : State) : Moves state (state.sync site).state := by
  unfold sync
  split
  · exact .refl
  · dsimp only
    split
    · exact (Relation.ReflTransGen.single (.lookAhead state)).tail (.delete _ _)
    · exact .single (.lookAhead state)

theorem unstall_moves (site : Site) (state : State) : Moves state (state.unstall site).2 := by
  unfold unstall
  split
  · exact .single (.pass state)
  · exact .refl

theorem skip_while_moves (state : State) (skips : Kind → Bool) :
    Moves state (state.skipWhile skips).2 := by
  unfold skipWhile
  generalize state.ahead.takeWhile (fun token => skips token.kind) = passed
  induction passed generalizing state with
  | nil => exact .refl
  | cons _ passed ih => exact (ih state.advance).head (.pass state)

theorem recover_moves (site : Site) (stack : List Phrase) (state : State) :
    Moves state (state.recover site stack).2 := by
  have hreport : Moves state (state.report (.mismatched site.left.firstKinds)) :=
    .single (.report state _)
  have hunstall := unstall_moves site (state.report (.mismatched site.left.firstKinds))
  exact ((hreport.trans hunstall).tail (.stall _ site)).trans
    (skip_while_moves _ fun kind => !stack.any (·.startsWith kind))

end State

namespace Progress

theorem and_then_moves {start : State} {progress : Progress} {next : State → Progress}
    (hprogress : Moves start progress.state)
    (hnext : ∀ state, Moves state (next state).state) :
    Moves start (progress.andThen next).state := by
  unfold andThen
  split
  · exact hprogress
  · exact hprogress.trans (hnext progress.state)

theorem close_moves {start : State} {progress : Progress} (hprogress : Moves start progress.state)
    (rule : Rule) (token : Token) (stack : List Phrase) :
    Moves start (progress.close rule token stack).2 := by
  unfold close
  split
  · exact hprogress
  · exact hprogress.trans (State.recover_moves _ _ _)

end Progress

theorem repeat_while_moves {enters : Kind → Bool} {step : State → Progress}
    (hstep : ∀ state, Moves state (step state).state) (rounds : Nat) (state : State) :
    Moves state (repeatWhile enters step rounds state).state := by
  induction rounds generalizing state with
  | zero => exact .refl
  | succ rounds ih =>
      unfold repeatWhile
      split
      · exact Progress.and_then_moves (hstep state) ih
      · exact .refl

theorem Phrase.run_moves {call : Rule → List Phrase → State → Tree × State}
    (hcall : ∀ rule stack state, Moves state (call rule stack state).2) (stack : List Phrase)
    (rounds : Nat) (phrase follow : Phrase) (state : State) :
    Moves state (phrase.run call stack rounds follow state).state := by
  induction phrase generalizing follow state with
  | empty => exact .refl
  | token kind => exact State.expect_moves _ _ _ _ _ _
  | oneOf kinds => exact State.expect_moves _ _ _ _ _ _
  | rule name => exact hcall _ _ _
  | seq first second ih ih' => exact Progress.and_then_moves (ih _ state) (ih' follow)
  | alt left right ih ih' =>
      refine Progress.and_then_moves (State.sync_moves _ state) fun state => ?_
      split
      · exact ih follow state
      · split
        · exact ih' follow state
        · exact .refl
  | opt body ih =>
      refine Progress.and_then_moves (State.sync_moves _ state) fun state => ?_
      split
      · exact ih follow state
      · exact .refl
  | star body ih => exact repeat_while_moves (ih _) rounds state
  | fork kind second left right ih ih' =>
      refine Progress.and_then_moves (State.sync_moves _ state) fun state => ?_
      split
      · dsimp only
        split
        · exact (ih follow _).head (.lookAhead state)
        · exact (ih' follow _).head (.lookAhead state)
      · split
        · exact ih' follow state
        · exact .refl

/-- Reading a rule is a number of moves. -/
theorem Rule.parse_moves (depth : Nat) (rule : Rule) (stack : List Phrase) (state : State) :
    Moves state (rule.parse depth stack state).2 := by
  induction depth generalizing rule stack state with
  | zero => exact .refl
  | succ depth ih => exact Progress.close_moves (Phrase.run_moves ih stack depth _ _ state) _ _ _

namespace State

/-- A state is honest if it recovers only from a fault that was noted. -/
def Honest (state : State) : Prop := state.recovering = true → state.faults ≠ []

/-- `counts total` says that `total` tokens have been passed or are ahead, and that the token in
view has been looked at. -/
def Counts (total : Nat) (state : State) : Prop :=
  state.index + state.ahead.length = total ∧ state.index < state.seen

@[simp] theorem ahead_report (state : State) (problem : Problem) :
    (state.report problem).ahead = state.ahead := by
  unfold report
  split <;> rfl

@[simp] theorem eof_report (state : State) (problem : Problem) :
    (state.report problem).eof = state.eof := by
  unfold report
  split <;> rfl

@[simp] theorem faults_advance (state : State) : state.advance.faults = state.faults := by
  unfold advance
  split <;> rfl

@[simp] theorem recovering_advance (state : State) :
    state.advance.recovering = state.recovering := by
  unfold advance
  split <;> rfl

@[simp] theorem eof_advance (state : State) : state.advance.eof = state.eof := by
  unfold advance
  split <;> rfl

theorem counts_report {total : Nat} {state : State} (h : state.Counts total) (problem : Problem) :
    (state.report problem).Counts total := by
  unfold report
  split
  · exact h
  · exact h

theorem counts_advance {total : Nat} {state : State} (h : state.Counts total) :
    state.advance.Counts total := by
  obtain ⟨htotal, hseen⟩ := h
  unfold advance
  split
  · exact ⟨htotal, hseen⟩
  · next token ahead hahead =>
    rw [hahead, List.length_cons] at htotal
    exact ⟨by simp only; omega, by simp only; omega⟩

theorem report_of_recovering {state : State} (problem : Problem) (h : state.recovering = true) :
    state.report problem = state := by
  rw [report, if_pos h]

theorem report_of_not_recovering {state : State} (problem : Problem)
    (h : state.recovering = false) :
    state.report problem =
      { state with
        recovering := true
        faults := state.faults ++ [⟨problem, state.current, state.index, state.seen⟩] } := by
  rw [report, if_neg (by simp [h])]

theorem faults_report_ne_nil {state : State} (h : state.Honest) (problem : Problem) :
    (state.report problem).faults ≠ [] := by
  cases hrecovering : state.recovering with
  | true => rw [report_of_recovering problem hrecovering]; exact h hrecovering
  | false => rw [report_of_not_recovering problem hrecovering]; simp

end State

/-- What each move keeps is kept by any number of them. -/
theorem Moves.keep {state next : State} (h : Moves state next) (holds : State → Prop)
    (hmove : ∀ {state next : State}, Move state next → holds state → holds next)
    (hstate : holds state) : holds next := by
  induction h with
  | refl => exact hstate
  | tail _ hlast ih => exact hmove hlast ih

theorem Move.faults_eq_append {state next : State} (h : Move state next) :
    ∃ later, next.faults = state.faults ++ later := by
  have hreport (state : State) (problem : Problem) :
      ∃ later, (state.report problem).faults = state.faults ++ later := by
    unfold State.report
    split
    · exact ⟨[], (List.append_nil _).symm⟩
    · exact ⟨_, rfl⟩
  cases h with
  | lookAhead | stall => exact ⟨[], (List.append_nil _).symm⟩
  | accept => exact ⟨[], by simp [State.accept, State.settle]⟩
  | report problem => exact hreport state problem
  | delete expected =>
      obtain ⟨later, hlater⟩ := hreport state (.extraneous expected)
      exact ⟨later, by simpa only [State.delete, State.settle, State.faults_advance] using hlater⟩
  | pass => exact ⟨[], by simp⟩

/-- Faults are never taken back. -/
theorem Moves.faults_eq_append {state next : State} (h : Moves state next) :
    ∃ later, next.faults = state.faults ++ later := by
  refine h.keep (fun next => ∃ later, next.faults = state.faults ++ later)
    (fun hmove hfaults => ?_) ⟨[], (List.append_nil _).symm⟩
  obtain ⟨early, hearly⟩ := hfaults
  obtain ⟨later, hlater⟩ := hmove.faults_eq_append
  exact ⟨early ++ later, by rw [hlater, hearly, List.append_assoc]⟩

/-- If no fault has been noted in the end, none had been noted before. -/
theorem Moves.faults_eq_nil {state next : State} (h : Moves state next) (hnone : next.faults = []) :
    state.faults = [] := by
  obtain ⟨later, hlater⟩ := h.faults_eq_append
  exact (List.append_eq_nil_iff.1 (hlater.symm.trans hnone)).1

theorem Move.honest {state next : State} (h : Move state next) (hstate : state.Honest) :
    next.Honest := by
  cases h with
  | lookAhead | stall => exact hstate
  | accept =>
      intro hrecovering
      simp [State.accept, State.settle] at hrecovering
  | report problem => exact fun _ => State.faults_report_ne_nil hstate problem
  | delete =>
      intro hrecovering
      simp [State.delete, State.settle] at hrecovering
  | pass =>
      intro hrecovering
      rw [State.faults_advance]
      exact hstate (by simpa using hrecovering)

/-- The parser recovers only from faults that it has noted. -/
theorem Moves.honest {state next : State} (h : Moves state next) (hstate : state.Honest) :
    next.Honest :=
  h.keep State.Honest Move.honest hstate

theorem Move.eof_eq {state next : State} (h : Move state next) : next.eof = state.eof := by
  cases h with
  | lookAhead | stall => rfl
  | accept => simp [State.accept, State.settle]
  | report problem => exact state.eof_report problem
  | delete => simp [State.delete, State.settle]
  | pass => exact state.eof_advance

/-- The mark at the end stays the same. -/
theorem Moves.eof_eq {state next : State} (h : Moves state next) : next.eof = state.eof :=
  h.keep (·.eof = state.eof) (fun hmove heof => hmove.eof_eq.trans heof) rfl

theorem Move.counts {total : Nat} {state next : State} (h : Move state next)
    (hstate : state.Counts total) : next.Counts total := by
  cases h with
  | lookAhead => exact ⟨hstate.1, Nat.lt_of_lt_of_le hstate.2 (Nat.le_max_left _ _)⟩
  | accept => exact State.counts_advance hstate
  | report problem => exact State.counts_report hstate problem
  | delete => exact State.counts_advance (State.counts_report hstate _)
  | pass => exact State.counts_advance hstate
  | stall => exact hstate

/-- No token is lost from the count, and the token in view has always been looked at. -/
theorem Moves.counts {total : Nat} {state next : State} (h : Moves state next)
    (hstate : state.Counts total) : next.Counts total :=
  h.keep (State.Counts total) Move.counts hstate

namespace State

theorem start_honest (tokens : List Token) (eof : Token) : (start tokens eof).Honest := nofun

theorem start_counts (tokens : List Token) (eof : Token) :
    (start tokens eof).Counts tokens.length := ⟨Nat.zero_add _, Nat.one_pos⟩

end State

end Little
