import Little.Proofs.Parsing.Complete

/-!
# What the token in view guarantees

These hold of every parse, with or without faults. A phrase that may stand for nothing, and that
the token in view cannot start, is passed over (`Phrase.run_passes_over`). A phrase that the token
in view can start passes at least that token (`Phrase.run_progress`), for a depth above its rank.
-/

namespace Little

theorem State.length_ahead_advance_le (state : State) :
    state.advance.ahead.length ≤ state.ahead.length := by
  unfold advance
  split
  · exact Nat.le_refl _
  · next hahead =>
    rw [hahead]
    exact Nat.le_succ _

theorem Move.length_ahead_le {state next : State} (h : Move state next) :
    next.ahead.length ≤ state.ahead.length := by
  cases h with
  | lookAhead | stall => exact Nat.le_refl _
  | accept => exact State.length_ahead_advance_le state.settle
  | report problem => exact Nat.le_of_eq (congrArg List.length (state.ahead_report problem))
  | delete expected =>
      have hle := State.length_ahead_advance_le (state.report (.extraneous expected))
      rwa [State.ahead_report] at hle
  | pass => exact State.length_ahead_advance_le state

/-- Tokens that have been passed do not come back. -/
theorem Moves.length_ahead_le {state next : State} (h : Moves state next) :
    next.ahead.length ≤ state.ahead.length :=
  h.keep (·.ahead.length ≤ state.ahead.length)
    (fun hmove hle => Nat.le_trans hmove.length_ahead_le hle) (Nat.le_refl _)

namespace Progress

theorem length_and_then_lt {length : Nat} {progress : Progress} {next : State → Progress}
    (hmoves : ∀ state, Moves state (next state).state)
    (h : progress.state.ahead.length < length) :
    (progress.andThen next).state.ahead.length < length :=
  Nat.lt_of_le_of_lt (and_then_moves .refl hmoves).length_ahead_le h

end Progress

namespace State

/-- A token that is not the mark at the end is taken out of those ahead when it is accepted. -/
theorem length_ahead_accept_lt {state : State} (h : state.current.kind ≠ state.eof.kind) :
    state.accept.ahead.length < state.ahead.length := by
  obtain ⟨rest, hahead⟩ := exists_ahead h
  rw [ahead_accept hahead, hahead]
  exact Nat.lt_succ_self _

end State

/-- The mark at the end cannot start a phrase in which it has no place. -/
theorem Phrase.starts_with_eof {phrase : Phrase} (hfree : phrase.isEndFree = true) :
    phrase.startsWith .eof = false := by
  induction phrase with
  | empty => rfl
  | token kind => simpa [isEndFree, startsWith] using hfree
  | oneOf kinds => simpa [isEndFree, startsWith] using hfree
  | rule name =>
      cases name with
      | program => exact absurd hfree (by decide)
      | _ => rfl
  | seq first second ih ih' | alt first second ih ih' | fork _ _ first second ih ih' =>
      simp only [isEndFree, Bool.and_eq_true] at hfree
      simp [startsWith, ih hfree.1, ih' hfree.2]
  | opt body ih | star body ih => exact ih hfree

section Runs

variable {depth : Nat} {rule : Rule}

theorem Phrase.run_passes_over
    (hcall : ∀ (name : Rule) (stack : List Phrase) (state : State), name.isNullable = true →
      name.startsWith state.current.kind = false → (name.parse depth stack state).2 = state)
    (stack : List Phrase) (phrase follow : Phrase)
    (hpredictive : phrase.isPredictive rule follow = true) {state : State}
    (hnullable : phrase.isNullable = true)
    (hstarts : phrase.startsWith state.current.kind = false)
    (hfollow : follow.isNullable = true ∨ follow.startsWith state.current.kind = true) :
    ∃ made, phrase.run (Rule.parse depth) stack depth follow state = ⟨state, made, none⟩ := by
  induction phrase generalizing follow state with
  | empty => exact ⟨[], rfl⟩
  | token | oneOf => exact absurd hnullable Bool.false_ne_true
  | rule name =>
      exact ⟨[(name.parse depth (follow :: stack) state).1],
        congrArg (fun next => (⟨next, _, none⟩ : Progress))
          (hcall name (follow :: stack) state hnullable hstarts)⟩
  | seq first second ih ih' =>
      simp only [isPredictive, isNullable, Bool.and_eq_true] at hpredictive hnullable
      simp only [startsWith, hnullable.1, Bool.true_and, Bool.or_eq_false_iff] at hstarts
      have hsecond : (Phrase.seq second follow).isNullable = true ∨
          (Phrase.seq second follow).startsWith state.current.kind = true := by
        rcases hfollow with hfollow | hfollow
        · exact .inl (by simp [isNullable, hnullable.2, hfollow])
        · exact .inr (by simp [startsWith, hnullable.2, hfollow])
      obtain ⟨front, hfront⟩ := ih _ hpredictive.1 hnullable.1 hstarts.1 hsecond
      obtain ⟨back, hback⟩ := ih' _ hpredictive.2 hnullable.2 hstarts.2 hfollow
      exact ⟨front ++ back, by rw [run, hfront, Progress.and_then_of_not_stuck rfl, hback]⟩
  | alt left right | fork _ _ left right =>
      -- the branches of a choice are never nullable
      simp only [isPredictive, Bool.and_eq_true, Bool.not_eq_true', decide_eq_true_eq]
        at hpredictive
      rw [isNullable, Bool.or_eq_true] at hnullable
      rcases hnullable with hnullable | hnullable <;> simp_all [isNullable, Rule.isNullable]
  | opt body =>
      have hfits : (Phrase.seq (.opt body) follow).isNullable = true ∨
          (Phrase.seq (.opt body) follow).startsWith state.current.kind = true := by
        rcases hfollow with hfollow | hfollow
        · exact .inl (by simp [isNullable, hfollow])
        · exact .inr (by simp [startsWith, isNullable, hfollow])
      rw [startsWith] at hstarts
      rw [run, State.sync_and_then_fits hfits, if_neg (ne_true_of_eq_false hstarts)]
      exact ⟨[], rfl⟩
  | star body =>
      rw [startsWith] at hstarts
      rw [run]
      cases depth with
      | zero => exact ⟨[], rfl⟩
      | succ depth =>
          rw [repeatWhile, if_neg (ne_true_of_eq_false hstarts)]
          exact ⟨[], rfl⟩

/-- A rule that may stand for nothing is passed over where the token in view cannot start it. -/
theorem Rule.parse_passes_over (name : Rule) (stack : List Phrase) (state : State)
    (hnullable : name.isNullable = true) (hstarts : name.startsWith state.current.kind = false) :
    (name.parse depth stack state).2 = state := by
  induction depth generalizing name stack state with
  | zero => rfl
  | succ depth ih =>
      rw [← Rule.is_nullable_body] at hnullable
      rw [← Rule.starts_with_body] at hstarts
      obtain ⟨made, hrun⟩ := Phrase.run_passes_over ih stack name.body .empty
        name.is_predictive_body hnullable hstarts (.inl rfl)
      rw [Rule.parse]
      show (Progress.close (name.body.run (Rule.parse depth) stack depth .empty state) name
        state.current stack).2 = state
      rw [hrun]
      rfl

/-- A repetition that the token in view can start passes a token if its first round does. -/
theorem repeat_while_progress {enters : Kind → Bool} {step : State → Progress} {rounds : Nat}
    {state : State} (hmoves : ∀ state, Moves state (step state).state) (hrounds : 0 < rounds)
    (henters : enters state.current.kind = true)
    (hstep : (step state).state.ahead.length < state.ahead.length) :
    (repeatWhile enters step rounds state).state.ahead.length < state.ahead.length := by
  obtain ⟨rounds, rfl⟩ := Nat.exists_eq_succ_of_ne_zero (Nat.ne_of_gt hrounds)
  rw [repeatWhile, if_pos henters]
  exact Progress.length_and_then_lt (repeat_while_moves hmoves rounds) hstep

theorem Phrase.run_progress
    (hcall : ∀ (name : Rule) (stack : List Phrase) (state : State), name ≠ .program →
      (Phrase.rule name).rank < depth → state.eof.kind = .eof →
      name.startsWith state.current.kind = true →
      (name.parse depth stack state).2.ahead.length < state.ahead.length)
    (stack : List Phrase) (phrase follow : Phrase) (hfree : phrase.isEndFree = true)
    (hpredictive : phrase.isPredictive rule follow = true) (hdepth : phrase.rank < depth)
    {state : State} (heof : state.eof.kind = .eof)
    (hstarts : phrase.startsWith state.current.kind = true) :
    (phrase.run (Rule.parse depth) stack depth follow state).state.ahead.length <
      state.ahead.length := by
  induction phrase using choice_induction generalizing follow state with
  | empty => exact absurd hstarts Bool.false_ne_true
  | token kind =>
      have hkind : kind = state.current.kind := by simpa [startsWith] using hstarts
      have hne : state.current.kind ≠ state.eof.kind := by
        rw [heof, ← hkind]
        simpa [isEndFree] using hfree
      rw [run, State.expect_fits (by rw [hkind]; exact List.mem_singleton_self _)]
      exact State.length_ahead_accept_lt hne
  | oneOf kinds =>
      have hkind : state.current.kind ∈ kinds := by simpa [startsWith] using hstarts
      have hne : state.current.kind ≠ state.eof.kind := by
        intro hend
        rw [hend, heof] at hkind
        simp [isEndFree, hkind] at hfree
      rw [run, State.expect_fits hkind]
      exact State.length_ahead_accept_lt hne
  | rule name =>
      exact hcall name (follow :: stack) state (by simpa [isEndFree] using hfree) hdepth heof
        hstarts
  | seq first second ih ih' =>
      simp only [isEndFree, isPredictive, Bool.and_eq_true] at hfree hpredictive
      rw [run]
      by_cases hfirst : first.startsWith state.current.kind = true
      · have hrank := Nat.lt_of_le_of_lt (first.rank_first_le second) hdepth
        exact Progress.length_and_then_lt (reading_moves depth stack second follow)
          (ih _ hfree.1 hpredictive.1 hrank heof hfirst)
      · -- the token in view starts the second part, so the first is passed over
        rw [Bool.not_eq_true] at hfirst
        rw [startsWith, hfirst, Bool.false_or, Bool.and_eq_true] at hstarts
        have hrank := Nat.lt_of_le_of_lt (rank_second_le hstarts.1 second) hdepth
        have hsite : (Phrase.seq second follow).startsWith state.current.kind = true := by
          rw [startsWith, hstarts.2, Bool.true_or]
        obtain ⟨made, hrun⟩ := Phrase.run_passes_over Rule.parse_passes_over stack first
          (.seq second follow) hpredictive.1 hstarts.1 hfirst (.inr hsite)
        rw [hrun, Progress.and_then_of_not_stuck rfl]
        exact ih' _ hfree.2 hpredictive.2 hrank heof hstarts.2
  | star body ih =>
      simp only [isPredictive, Bool.and_eq_true] at hpredictive
      exact repeat_while_progress (reading_moves depth stack body _) (Nat.zero_lt_of_lt hdepth)
        hstarts (ih _ hfree hpredictive.2 hdepth heof hstarts)
  | choice phrase hchoice ih =>
      obtain ⟨next, hrun, hchosen⟩ := run_choice hchoice hpredictive depth stack state
      rw [hrun, State.sync_and_then_fits (.inr (by rw [startsWith, hstarts, Bool.true_or]))]
      have hprogress := hchosen state
      generalize next state = progress at hprogress ⊢
      cases hprogress with
      | @branch body after hmem hmoves hahead hbody =>
          rw [← hahead]
          exact ih body hmem follow (is_end_free_of_branch hmem hfree)
            (is_predictive_of_branch hmem hpredictive)
            (Nat.lt_of_le_of_lt (rank_of_branch hmem) hdepth) (hmoves.eof_eq ▸ heof) hbody
      | nothing _ hnot | stuck _ hnot => exact absurd hstarts (ne_true_of_eq_false hnot)

/-- A rule that the token in view can start passes at least that token. -/
theorem Rule.parse_progress (name : Rule) (stack : List Phrase) (state : State)
    (hname : name ≠ .program) (hdepth : (Phrase.rule name).rank < depth)
    (heof : state.eof.kind = .eof) (hstarts : name.startsWith state.current.kind = true) :
    (name.parse depth stack state).2.ahead.length < state.ahead.length := by
  induction depth generalizing name stack state with
  | zero => exact absurd hdepth (Nat.not_lt_zero _)
  | succ depth ih =>
      have hrank : name.body.rank < depth := by
        have hle := name.rank_body_le
        rw [Phrase.rank] at hdepth
        omega
      rw [← Rule.starts_with_body] at hstarts
      have hbody := Phrase.run_progress ih stack name.body .empty (Rule.is_end_free_body hname)
        name.is_predictive_body hrank heof hstarts
      have hclose : Moves (name.body.run (Rule.parse depth) stack depth .empty state).state
          (name.parse (depth + 1) stack state).2 := Progress.close_moves .refl _ _ _
      exact Nat.lt_of_le_of_lt hclose.length_ahead_le hbody

end Runs

end Little
