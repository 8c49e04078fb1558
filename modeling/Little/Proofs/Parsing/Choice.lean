import Little.Proofs.Grammar.Predictive
import Little.Proofs.Parsing.Moves

/-!
# Where the grammar leaves a choice

Before alternatives, before what may be left out, and before a call or a primary, the parser checks
the token in view and then goes by it. `Chosen` lists what it can do then: read a branch that the
token in view can start, read nothing, or give the rule up. `Phrase.run_choice` says that it does
nothing else, so proofs about reading have one case for all choices.
-/

namespace Little

theorem reading_moves (depth : Nat) (stack : List Phrase) (phrase follow : Phrase)
    (state : State) :
    Moves state (phrase.run (Rule.parse depth) stack depth follow state).state :=
  Phrase.run_moves (Rule.parse_moves depth) stack depth phrase follow state

/-- `Chosen depth stack phrase follow state progress` says that the token in view, and the one
behind it where the choice takes two, can lead from the state to the progress. -/
inductive Chosen (depth : Nat) (stack : List Phrase) (phrase follow : Phrase) (state : State) :
    Progress → Prop where
  | branch {body : Phrase} {after : State} :
      body ∈ phrase.branches → Moves state after → after.ahead = state.ahead →
      body.startsWith after.current.kind = true →
      Chosen depth stack phrase follow state
        (body.run (Rule.parse depth) stack depth follow after)
  | nothing :
      Derives phrase [] [] → phrase.startsWith state.current.kind = false →
      Chosen depth stack phrase follow state ⟨state, [], none⟩
  | stuck (site : Phrase) :
      phrase.startsWith state.current.kind = false →
      Chosen depth stack phrase follow state ⟨state, [], some site⟩

theorem Chosen.moves {depth : Nat} {stack : List Phrase} {phrase follow : Phrase} {state : State}
    {progress : Progress} (h : Chosen depth stack phrase follow state progress) :
    Moves state progress.state := by
  cases h with
  | branch _ hmoves => exact hmoves.trans (reading_moves depth stack _ follow _)
  | nothing | stuck => exact .refl

/-- A choice checks the token in view and goes by it. -/
theorem Phrase.run_choice {rule : Rule} {phrase follow : Phrase} (hchoice : phrase.branches ≠ [])
    (hpredictive : phrase.isPredictive rule follow = true) (depth : Nat) (stack : List Phrase)
    (state : State) :
    ∃ next : State → Progress,
      phrase.run (Rule.parse depth) stack depth follow state =
        (state.sync (.seq phrase follow)).andThen next ∧
      ∀ state, Chosen depth stack phrase follow state (next state) := by
  have hsecond (left right : Phrase) : right ∈ [left, right] :=
    List.mem_cons_of_mem left List.mem_cons_self
  cases phrase with
  | alt left right =>
      rw [run]
      refine ⟨_, rfl, fun state => ?_⟩
      split
      · next hleft => exact .branch List.mem_cons_self .refl rfl hleft
      · next hleft =>
        split
        · next hright => exact .branch (hsecond left right) .refl rfl hright
        · next hright =>
          rw [Bool.not_eq_true] at hleft hright
          exact .stuck _ (by rw [startsWith, hleft, hright, Bool.or_false])
  | opt body =>
      rw [run]
      refine ⟨_, rfl, fun state => ?_⟩
      split
      · next hbody => exact .branch List.mem_cons_self .refl rfl hbody
      · next hbody =>
        rw [Bool.not_eq_true] at hbody
        exact .nothing .optNone hbody
  | fork kind second left right =>
      simp only [isPredictive, Bool.and_eq_true, Bool.not_eq_true', decide_eq_true_eq]
        at hpredictive
      obtain ⟨⟨⟨⟨⟨⟨rfl, rfl⟩, rfl⟩, rfl⟩, -⟩, -⟩, -⟩ := hpredictive
      rw [run]
      refine ⟨_, rfl, fun state => ?_⟩
      split
      · next hkind =>
        -- an identifier starts a call as well as a primary, whichever the next token decides for
        have hlook : Moves state state.lookAhead := .single (.lookAhead state)
        have hident : state.lookAhead.current.kind = .identifier := hkind
        dsimp only
        split
        · exact .branch List.mem_cons_self hlook rfl (by rw [hident]; rfl)
        · exact .branch (hsecond _ _) hlook rfl (by rw [hident]; rfl)
      · next hkind =>
        split
        · next hprimary => exact .branch (hsecond _ _) .refl rfl hprimary
        · next hprimary =>
          have hcall : (Phrase.rule .call).startsWith state.current.kind = false := by
            simpa [startsWith, Rule.startsWith, Rule.firstKinds] using hkind
          rw [Bool.not_eq_true] at hprimary
          exact .stuck _ (by rw [startsWith, hcall, hprimary, Bool.or_false])
  | empty | token | oneOf | rule | seq | star => exact absurd rfl hchoice

end Little
