import Little.Proofs.Lexing.Places
import Little.Proofs.Parsing.Trail

/-!
# Where faults are noted

A fault is noted at the token in view, with at most one more token looked at (`Moves.tracks`), and
no later one lies before it (`Moves.exists_later`). That no two lie at the same token needs more:
a fault is followed by others only when a token has fitted since, and then that token has been
passed. The mark at the end is the exception, as it fits without being passed, so `State.Orderly`
is kept by what cannot read the mark (`Phrase.run_orderly`), and the mark comes last in a program
(`Phrase.run_orderly_end`).
-/

namespace Little

/-- A fault noted in a row of tokens: at the token of its number, with one more token looked at or
none. -/
structure Fault.IsIn (fault : Fault) (tokens : List Token) : Prop where
  token : tokens[fault.index]? = some fault.token
  lt_seen : fault.index < fault.seen
  seen_le : fault.seen ≤ fault.index + 2

namespace State

/-- A state on the way through the tokens of a text and the mark behind them. -/
structure Tracks (state : State) (lexing : Lexing) : Prop where
  ahead : state.ahead = lexing.tokens.drop state.index
  index_le : state.index ≤ lexing.tokens.length
  eof : state.eof = lexing.eof
  lt_seen : state.index < state.seen
  seen_le : state.seen ≤ state.index + 2
  faults : ∀ fault ∈ state.faults, fault.IsIn lexing.marked

variable {state : State} {lexing : Lexing}

theorem tracks_start (lexing : Lexing) : (start lexing.tokens lexing.eof).Tracks lexing :=
  ⟨rfl, Nat.zero_le _, rfl, Nat.one_pos, Nat.le_succ _, List.forall_mem_nil _⟩

/-- The token in view is the one whose number has been reached. -/
theorem Tracks.current (h : state.Tracks lexing) :
    lexing.marked[state.index]? = some state.current := by
  have hahead := h.ahead
  unfold Lexing.marked
  rcases Nat.lt_or_eq_of_le h.index_le with hlt | heq
  · rw [List.drop_eq_getElem_cons hlt] at hahead
    rw [List.getElem?_append_left hlt, List.getElem?_eq_getElem hlt, current_of_ahead hahead]
  · rw [heq, List.drop_length] at hahead
    rw [heq, List.getElem?_concat_length, current_of_nil hahead, h.eof]

theorem Tracks.advance (h : state.Tracks lexing) : state.advance.Tracks lexing := by
  unfold State.advance
  split
  · exact h
  · next token rest hahead =>
    have hlt : state.index < lexing.tokens.length := by
      refine Nat.lt_of_le_of_ne h.index_le fun heq => ?_
      rw [h.ahead, heq, List.drop_length] at hahead
      cases hahead
    have hrest := congrArg List.tail hahead
    rw [h.ahead, List.tail_drop] at hrest
    refine ⟨hrest.symm, hlt, h.eof, ?_, ?_, h.faults⟩
    · exact Nat.lt_of_lt_of_le (Nat.lt_succ_self _) (Nat.le_max_right _ _)
    · exact Nat.max_le.2 ⟨Nat.le_succ_of_le h.seen_le, Nat.le_succ _⟩

theorem Tracks.report (h : state.Tracks lexing) (problem : Problem) :
    (state.report problem).Tracks lexing := by
  unfold State.report
  split
  · exact h
  · refine ⟨h.ahead, h.index_le, h.eof, h.lt_seen, h.seen_le, fun fault hmem => ?_⟩
    rcases List.mem_append.1 hmem with hmem | hmem
    · exact h.faults fault hmem
    · rw [List.mem_singleton.1 hmem]
      exact ⟨h.current, h.lt_seen, h.seen_le⟩

theorem Tracks.settle (h : state.Tracks lexing) : state.settle.Tracks lexing :=
  ⟨h.ahead, h.index_le, h.eof, h.lt_seen, h.seen_le, h.faults⟩

end State

theorem Move.tracks {state next : State} {lexing : Lexing} (h : Move state next)
    (hstate : state.Tracks lexing) : next.Tracks lexing := by
  cases h with
  | lookAhead =>
      exact ⟨hstate.ahead, hstate.index_le, hstate.eof,
        Nat.lt_of_lt_of_le hstate.lt_seen (Nat.le_max_left _ _),
        Nat.max_le.2 ⟨hstate.seen_le, Nat.le_refl _⟩, hstate.faults⟩
  | accept => exact hstate.settle.advance
  | report problem => exact hstate.report problem
  | delete => exact (hstate.report _).advance.settle
  | pass => exact hstate.advance
  | stall =>
      exact ⟨hstate.ahead, hstate.index_le, hstate.eof, hstate.lt_seen, hstate.seen_le,
        hstate.faults⟩

/-- Every fault is noted at the token in view, with at most one more token looked at. -/
theorem Moves.tracks {state next : State} {lexing : Lexing} (h : Moves state next)
    (hstate : state.Tracks lexing) : next.Tracks lexing :=
  h.keep (State.Tracks · lexing) Move.tracks hstate

namespace State

theorem index_le_advance (state : State) : state.index ≤ state.advance.index := by
  unfold advance
  split
  · exact Nat.le_refl _
  · exact Nat.le_succ _

@[simp] theorem index_report (state : State) (problem : Problem) :
    (state.report problem).index = state.index := by
  unfold report
  split <;> rfl

/-- What is reported lies at the token in view. -/
theorem exists_report (state : State) (problem : Problem) :
    ∃ later, (state.report problem).faults = state.faults ++ later ∧
      ∀ fault ∈ later, fault.index = state.index := by
  unfold report
  split
  · exact ⟨[], (List.append_nil _).symm, List.forall_mem_nil _⟩
  · exact ⟨_, rfl, List.forall_mem_singleton.2 rfl⟩

end State

/-- Faults are noted at the token in view. -/
theorem Move.exists_later {state next : State} (h : Move state next) :
    state.index ≤ next.index ∧ ∃ later, next.faults = state.faults ++ later ∧
      ∀ fault ∈ later, fault.index = state.index := by
  have hsame : ∃ later, state.faults = state.faults ++ later ∧
      ∀ fault ∈ later, fault.index = state.index :=
    ⟨[], (List.append_nil _).symm, List.forall_mem_nil _⟩
  cases h with
  | lookAhead | stall => exact ⟨Nat.le_refl _, hsame⟩
  | accept =>
      refine ⟨state.settle.index_le_advance, ?_⟩
      rwa [State.faults_accept]
  | report problem =>
      exact ⟨Nat.le_of_eq (state.index_report problem).symm, state.exists_report problem⟩
  | delete expected =>
      have hle := (state.report (.extraneous expected)).index_le_advance
      rw [State.index_report] at hle
      refine ⟨hle, ?_⟩
      rw [State.delete, State.settle, State.faults_advance]
      exact state.exists_report (.extraneous expected)
  | pass =>
      refine ⟨state.index_le_advance, ?_⟩
      rwa [State.faults_advance]

/-- Faults are noted from the token in view on, up to the one that comes into view. -/
theorem Moves.exists_later {state next : State} (h : Moves state next) :
    state.index ≤ next.index ∧ ∃ later, next.faults = state.faults ++ later ∧
      ∀ fault ∈ later, state.index ≤ fault.index ∧ fault.index ≤ next.index := by
  induction h with
  | refl => exact ⟨Nat.le_refl _, [], (List.append_nil _).symm, List.forall_mem_nil _⟩
  | @tail middle next _ hlast ih =>
      obtain ⟨hle, front, hfront, hfirst⟩ := ih
      obtain ⟨hnext, back, hback, hsecond⟩ := hlast.exists_later
      refine ⟨Nat.le_trans hle hnext, front ++ back, by rw [hback, hfront, List.append_assoc], ?_⟩
      refine List.forall_mem_append.2 ⟨fun fault hmem => ?_, fun fault hmem => ?_⟩
      · exact ⟨(hfirst fault hmem).1, Nat.le_trans (hfirst fault hmem).2 hnext⟩
      · rw [hsecond fault hmem]
        exact ⟨hle, hnext⟩

namespace State

theorem total_advance (state : State) :
    state.advance.index + state.advance.ahead.length = state.index + state.ahead.length := by
  unfold advance
  split
  · rfl
  · next hahead =>
    rw [hahead, List.length_cons]
    exact Nat.succ_add_eq_add_succ _ _

end State

theorem Move.total_eq {state next : State} (h : Move state next) :
    next.index + next.ahead.length = state.index + state.ahead.length := by
  cases h with
  | lookAhead | stall => rfl
  | accept => exact state.settle.total_advance
  | report problem => rw [State.index_report, State.ahead_report]
  | delete expected =>
      have htotal := (state.report (.extraneous expected)).total_advance
      rwa [State.index_report, State.ahead_report] at htotal
  | pass => exact state.total_advance

/-- Tokens passed and tokens ahead are together as many as before. -/
theorem Moves.total_eq {state next : State} (h : Moves state next) :
    next.index + next.ahead.length = state.index + state.ahead.length :=
  h.keep (fun next => next.index + next.ahead.length = state.index + state.ahead.length)
    (fun hmove htotal => hmove.total_eq.trans htotal) rfl

namespace State

/-- The faults lie at tokens one behind the other, none behind the token in view, and none at it
unless recovery is on. -/
structure Orderly (state : State) : Prop where
  eof : state.eof.kind = .eof
  pairwise : state.faults.Pairwise (·.index < ·.index)
  le : ∀ fault ∈ state.faults, fault.index ≤ state.index
  lt : state.recovering = false → ∀ fault ∈ state.faults, fault.index < state.index

variable {state : State}

theorem start_orderly (tokens : List Token) {eof : Token} (heof : eof.kind = .eof) :
    (start tokens eof).Orderly :=
  ⟨heof, .nil, List.forall_mem_nil _, fun _ => List.forall_mem_nil _⟩

namespace Orderly

theorem look_ahead (h : state.Orderly) : state.lookAhead.Orderly := ⟨h.eof, h.pairwise, h.le, h.lt⟩

theorem report (h : state.Orderly) (problem : Problem) : (state.report problem).Orderly := by
  cases hrecovering : state.recovering with
  | true => rwa [report_of_recovering problem hrecovering]
  | false =>
      rw [report_of_not_recovering problem hrecovering]
      refine ⟨h.eof, ?_, ?_, fun hnot => absurd hnot Bool.true_eq_false_eq_False⟩
      · refine List.pairwise_append.2 ⟨h.pairwise, List.pairwise_singleton _ _, ?_⟩
        exact fun fault hmem => List.forall_mem_singleton.2 (h.lt hrecovering fault hmem)
      · exact List.forall_mem_append.2 ⟨h.le, List.forall_mem_singleton.2 (Nat.le_refl _)⟩

theorem advance (h : state.Orderly) : state.advance.Orderly := by
  have hle := state.index_le_advance
  refine ⟨state.eof_advance ▸ h.eof, ?_, ?_, ?_⟩
  · rw [faults_advance]
    exact h.pairwise
  · rw [faults_advance]
    exact fun fault hmem => Nat.le_trans (h.le fault hmem) hle
  · rw [faults_advance, recovering_advance]
    exact fun hnot fault hmem => Nat.lt_of_lt_of_le (h.lt hnot fault hmem) hle

/-- A token that is passed leaves all faults behind, whatever was wrong. -/
theorem settle_advance (h : state.Orderly) (hahead : state.ahead ≠ []) :
    state.advance.settle.Orderly := by
  have hnext := h.advance
  refine ⟨hnext.eof, hnext.pairwise, hnext.le, fun _ fault hmem => ?_⟩
  rw [settle, faults_advance] at hmem
  refine Nat.lt_of_le_of_lt (h.le fault hmem) ?_
  obtain ⟨token, rest, hcons⟩ := List.exists_cons_of_ne_nil hahead
  simp only [settle, State.advance, hcons]
  exact Nat.lt_succ_self _

theorem accept (h : state.Orderly) (hahead : state.ahead ≠ []) : state.accept.Orderly := by
  have hsame : state.accept = state.advance.settle := by
    obtain ⟨token, rest, hcons⟩ := List.exists_cons_of_ne_nil hahead
    simp only [State.accept, settle, State.advance, hcons]
  exact hsame ▸ h.settle_advance hahead

theorem delete (h : state.Orderly) (hahead : state.ahead ≠ []) (expected : List Kind) :
    (state.delete expected).Orderly :=
  (h.report _).settle_advance (by rwa [ahead_report])

/-- A token that is expected and is not the mark at the end is passed. -/
theorem accept_of_mem (h : state.Orderly) {kinds : List Kind} (hfree : Kind.eof ∉ kinds)
    (hkind : state.current.kind ∈ kinds) : state.accept.Orderly := by
  refine h.accept fun hahead => hfree ?_
  rwa [current_of_nil hahead, h.eof] at hkind

end Orderly

/-- The mark at the end is not dropped: what is found behind it is the mark again. -/
theorem ahead_ne_nil_of_second (holds : Kind → Bool)
    (hfirst : ¬ holds state.current.kind = true) (hsecond : holds state.second.kind = true) :
    state.ahead ≠ [] := by
  intro hahead
  rw [current_of_nil hahead] at hfirst
  rw [second, hahead] at hsecond
  exact hfirst hsecond

/-- Whichever way out is taken where a token is expected, the faults before it stay in order, and
no fault is left at the token in view unless the mark at the end was read. -/
theorem expect_orderly {kinds : List Kind} {conjured : Option Kind} {site follow : Phrase}
    {stack : List Phrase} (h : state.Orderly) :
    (state.expect kinds conjured site follow stack).state.faults.Pairwise (·.index < ·.index) ∧
      (Kind.eof ∉ kinds ∨ (state.expect kinds conjured site follow stack).stuck ≠ none →
        (state.expect kinds conjured site follow stack).state.Orderly) := by
  unfold expect
  split
  · next hkind =>
    rw [faults_accept]
    refine ⟨h.pairwise, fun hfree => h.accept_of_mem ?_ (by simpa using hkind)⟩
    exact hfree.resolve_right fun hnot => hnot rfl
  · next hkind =>
    dsimp only
    split
    · next hsecond =>
      have hahead : state.lookAhead.ahead ≠ [] :=
        ahead_ne_nil_of_second kinds.contains hkind hsecond
      have hdelete := h.look_ahead.delete hahead kinds
      rw [faults_accept]
      refine ⟨hdelete.pairwise, fun hfree => ?_⟩
      refine hdelete.accept_of_mem (hfree.resolve_right fun hnot => hnot rfl) ?_
      rw [current_delete]
      simpa using hsecond
    · split
      · have hreport := h.look_ahead.report (.missing kinds)
        exact ⟨hreport.pairwise, fun _ => hreport⟩
      · exact ⟨h.pairwise, fun _ => h.look_ahead⟩

theorem sync_orderly (h : state.Orderly) (site : Phrase) : (state.sync site).state.Orderly := by
  unfold sync
  split
  · exact h
  · next hfits =>
    simp only [Bool.or_eq_true, not_or] at hfits
    dsimp only
    split
    · next hsecond =>
      exact h.look_ahead.delete
        (ahead_ne_nil_of_second (site.startsWith ·) hfits.2 hsecond) site.firstKinds
    · exact h.look_ahead

theorem Orderly.stall (h : state.Orderly) (index : Option Nat) (sites : List Site) :
    State.Orderly { state with stalledAt := index, stalledIn := sites } :=
  ⟨h.eof, h.pairwise, h.le, h.lt⟩

theorem unstall_orderly (h : state.Orderly) (site : Site) : (state.unstall site).2.Orderly := by
  unfold unstall
  split
  · exact h.advance
  · exact h

theorem skip_while_orderly (h : state.Orderly) (skips : Kind → Bool) :
    (state.skipWhile skips).2.Orderly := by
  unfold skipWhile
  generalize state.ahead.takeWhile (fun token => skips token.kind) = passed
  induction passed generalizing state with
  | nil => exact h
  | cons _ passed ih => exact ih h.advance

theorem recover_orderly (h : state.Orderly) (site : Site) (stack : List Phrase) :
    (state.recover site stack).2.Orderly := by
  have hunstall := unstall_orderly (h.report (.mismatched site.left.firstKinds)) site
  exact skip_while_orderly (hunstall.stall _ _) fun kind => !stack.any (·.startsWith kind)

end State

namespace Progress

theorem and_then_orderly {progress : Progress} {next : State → Progress}
    (h : progress.state.Orderly) (hnext : ∀ state, state.Orderly → (next state).state.Orderly) :
    (progress.andThen next).state.Orderly := by
  unfold andThen
  split
  · exact h
  · exact hnext progress.state h

theorem close_orderly {progress : Progress} (h : progress.state.Orderly) (rule : Rule)
    (token : Token) (stack : List Phrase) :
    (progress.close rule token stack).2.Orderly := by
  unfold close
  split
  · exact h
  · exact State.recover_orderly h _ stack

end Progress

theorem repeat_while_orderly {enters : Kind → Bool} {step : State → Progress}
    (hstep : ∀ state, state.Orderly → (step state).state.Orderly) (rounds : Nat) {state : State}
    (h : state.Orderly) : (repeatWhile enters step rounds state).state.Orderly := by
  induction rounds generalizing state with
  | zero => exact h
  | succ rounds ih =>
      unfold repeatWhile
      split
      · exact Progress.and_then_orderly (hstep state h) fun _ hnext => ih hnext
      · exact h

/-- Reading what has no place for the mark at the end keeps the faults in order. -/
theorem Phrase.run_orderly {call : Rule → List Phrase → State → Tree × State}
    (hcall : ∀ (rule : Rule) (stack : List Phrase) (state : State), rule ≠ .program →
      state.Orderly → (call rule stack state).2.Orderly)
    (stack : List Phrase) (rounds : Nat) (phrase follow : Phrase)
    (hfree : phrase.isEndFree = true) {state : State} (h : state.Orderly) :
    (phrase.run call stack rounds follow state).state.Orderly := by
  induction phrase generalizing follow state with
  | empty => exact h
  | token kind =>
      have hnot : Kind.eof ∉ [kind] := by
        rw [isEndFree, bne_iff_ne] at hfree
        simpa using Ne.symm hfree
      exact (State.expect_orderly h).2 (.inl hnot)
  | oneOf kinds =>
      have hnot : Kind.eof ∉ kinds := by
        simpa [isEndFree] using hfree
      exact (State.expect_orderly h).2 (.inl hnot)
  | rule name => exact hcall name (follow :: stack) state (by simpa [isEndFree] using hfree) h
  | seq first second ih ih' =>
      rw [isEndFree, Bool.and_eq_true] at hfree
      exact Progress.and_then_orderly (ih _ hfree.1 h) fun _ hnext => ih' follow hfree.2 hnext
  | alt left right ih ih' =>
      rw [isEndFree, Bool.and_eq_true] at hfree
      refine Progress.and_then_orderly (State.sync_orderly h _) fun state h => ?_
      split
      · exact ih follow hfree.1 h
      · split
        · exact ih' follow hfree.2 h
        · exact h
  | opt body ih =>
      refine Progress.and_then_orderly (State.sync_orderly h _) fun state h => ?_
      split
      · exact ih follow hfree h
      · exact h
  | star body ih => exact repeat_while_orderly (fun _ h => ih _ hfree h) rounds h
  | fork kind second left right ih ih' =>
      rw [isEndFree, Bool.and_eq_true] at hfree
      refine Progress.and_then_orderly (State.sync_orderly h _) fun state h => ?_
      split
      · dsimp only
        split
        · exact ih follow hfree.1 h.look_ahead
        · exact ih' follow hfree.2 h.look_ahead
      · split
        · exact ih' follow hfree.2 h
        · exact h

theorem Rule.parse_orderly (depth : Nat) (rule : Rule) (stack : List Phrase) (state : State)
    (hrule : rule ≠ .program) (h : state.Orderly) : (rule.parse depth stack state).2.Orderly := by
  induction depth generalizing rule stack state with
  | zero => exact h
  | succ depth ih =>
      have hbody := Phrase.run_orderly ih stack depth rule.body .empty
        (Rule.is_end_free_body hrule) h
      exact Progress.close_orderly hbody _ _ _

/-- Where the mark at the end is read, and with it all is read, the faults are in order. -/
theorem Phrase.run_orderly_end (depth : Nat) (stack : List Phrase) (phrase follow : Phrase)
    (hends : phrase.ends = true) {state : State} (h : state.Orderly) :
    (phrase.run (Rule.parse depth) stack depth follow state).state.faults.Pairwise
        (·.index < ·.index) ∧
      ((phrase.run (Rule.parse depth) stack depth follow state).stuck ≠ none →
        (phrase.run (Rule.parse depth) stack depth follow state).state.Orderly) := by
  induction phrase generalizing follow state with
  | token kind =>
      have hexpect := @State.expect_orderly state [kind] (some kind) (.seq (.token kind) follow)
        follow stack h
      exact ⟨hexpect.1, fun hstuck => hexpect.2 (.inr hstuck)⟩
  | seq first second ih ih' =>
      rw [ends, Bool.and_eq_true] at hends
      have hfirst := Phrase.run_orderly (Rule.parse_orderly depth) stack depth first
        (.seq second follow) hends.1 h
      rw [run]
      unfold Progress.andThen
      split
      · exact ⟨hfirst.pairwise, fun _ => hfirst⟩
      · exact ih' follow hends.2 hfirst
  | empty | oneOf | rule | alt | opt | star | fork => exact absurd hends Bool.false_ne_true

/-- No two faults lie at the same token, and each lies behind the one before. -/
theorem Rule.parse_faults_pairwise (depth : Nat) (rule : Rule) (stack : List Phrase)
    {state : State} (h : state.Orderly) :
    (rule.parse depth stack state).2.faults.Pairwise (·.index < ·.index) := by
  by_cases hrule : rule = .program
  · subst hrule
    cases depth with
    | zero => exact h.pairwise
    | succ depth =>
        obtain ⟨hpairwise, hstuck⟩ := Phrase.run_orderly_end depth stack Rule.program.body .empty
          Rule.ends_body_program h
        rw [Rule.parse]
        unfold Progress.close
        split
        · exact hpairwise
        · next hleft =>
          exact (State.recover_orderly (hstuck (hleft ▸ Option.some_ne_none _)) _ _).pairwise
  · exact (Rule.parse_orderly depth rule stack state hrule h).pairwise

end Little
