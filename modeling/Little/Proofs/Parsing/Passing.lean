import Little.Proofs.Grammar.Viable
import Little.Proofs.Parsing.Faults

/-!
# Viable tokens are passed without a fault

`Phrase.run_passes` says that tokens ahead which are viable for a phrase are passed, and that no
fault is noted before. They need not be all that the phrase stands for, and what comes behind them
need not fit, so the end of one part may be found out only in a part behind it; but each choice made
on the way is the one that a completion of these tokens makes. Where a choice takes two tokens and
only one of them is viable, both branches have a completion of it.
-/

namespace Little

/-- `Passes count state next` says that from `state` on so many tokens were passed before anything
else was found wrong. -/
structure Passes (count : Nat) (state next : State) : Prop where
  index_le : state.index + count ≤ next.index
  exists_later : ∃ later, next.faults = state.faults ++ later ∧
    ∀ fault ∈ later, state.index + count ≤ fault.index

namespace Passes

variable {count more : Nat} {state middle next : State}

/-- What is passed first and what is passed behind it without a fault between. -/
theorem behind (h : Passes more middle next) (hindex : middle.index = state.index + count)
    (hfaults : middle.faults = state.faults) : Passes (count + more) state next := by
  obtain ⟨hle, later, happend, hlater⟩ := h
  rw [hindex, Nat.add_assoc] at hle
  rw [hfaults] at happend
  rw [hindex, Nat.add_assoc] at hlater
  exact ⟨hle, later, happend, hlater⟩

/-- Whatever is done behind the tokens passed. -/
theorem trans (h : Passes count state middle) (hmoves : Moves middle next) :
    Passes count state next := by
  obtain ⟨hle, front, hfront, hfirst⟩ := h
  obtain ⟨hnext, back, hback, hbetween⟩ := hmoves.exists_later
  refine ⟨Nat.le_trans hle hnext, front ++ back, by rw [hback, hfront, List.append_assoc], ?_⟩
  exact List.forall_mem_append.2
    ⟨hfirst, fun fault hmem => Nat.le_trans hle (hbetween fault hmem).1⟩

theorem of_look_ahead (h : Passes count state.lookAhead next) : Passes count state next :=
  ⟨h.index_le, h.exists_later⟩

theorem and_then {progress : Progress} {next : State → Progress}
    (h : Passes count state progress.state) (hmoves : ∀ state, Moves state (next state).state) :
    Passes count state (progress.andThen next).state :=
  h.trans (Progress.and_then_moves .refl hmoves)

end Passes

/-- A state before tokens that are viable for a phrase. -/
structure Promising (depth : Nat) (phrase : Phrase) (state : State) (front : List Token) :
    Prop where
  recovering : state.recovering = false
  eof : state.eof.kind = .eof
  ahead : front <+: state.ahead
  viable : Viable phrase front
  deep : Deep depth phrase.rank state

/-- Tokens that are viable for a rule are passed in reading it to the depth given. -/
def PassesTo (depth : Nat) : Prop :=
  ∀ (rule : Rule) (stack : List Phrase) (state : State) (token : Token) (front : List Token),
    rule ≠ .program → Promising depth (.rule rule) state (token :: front) →
    Passes (front.length + 1) state (rule.parse depth stack state).2

namespace Promising

variable {depth : Nat} {phrase first second : Phrase} {state : State} {token : Token}
  {front : List Token}

theorem current_eq (h : Promising depth phrase state (token :: front)) :
    state.current = token := by
  obtain ⟨rest, hrest⟩ := h.ahead
  exact State.current_of_ahead hrest.symm

theorem second_eq {next : Token} (h : Promising depth phrase state (token :: next :: front)) :
    state.second = next := by
  obtain ⟨rest, hrest⟩ := h.ahead
  rw [State.second, ← hrest]
  rfl

theorem ahead_ne_nil (h : Promising depth phrase state (token :: front)) : state.ahead ≠ [] := by
  obtain ⟨rest, hrest⟩ := h.ahead
  exact hrest ▸ List.cons_ne_nil _ _

theorem starts_with (h : Promising depth phrase state (token :: front)) :
    phrase.startsWith state.current.kind = true :=
  h.current_eq ▸ h.viable.starts_with

/-- What is viable for a part of no higher rank. -/
theorem part {other : Phrase} (h : Promising depth phrase state front)
    (hviable : Viable other front) (hrank : other.rank ≤ phrase.rank) :
    Promising depth other state front :=
  ⟨h.recovering, h.eof, h.ahead, hviable, h.deep.mono (Nat.le_refl _) hrank⟩

theorem look_ahead (h : Promising depth phrase state front) :
    Promising depth phrase state.lookAhead front :=
  ⟨h.recovering, h.eof, h.ahead, h.viable, h.deep⟩

/-- A choice before tokens that are viable for it is made at once. -/
theorem sync_and_then (h : Promising depth phrase state (token :: front)) (follow : Phrase)
    (next : State → Progress) : (state.sync (.seq phrase follow)).andThen next = next state :=
  State.sync_and_then_fits (.inr (by rw [Phrase.startsWith, h.starts_with, Bool.true_or])) next

end Promising

section Runs

variable {depth : Nat} {rule : Rule}

/-- Where the first ones of viable tokens derive from a part and the others are viable for what
follows it, the part is read to its end and the others are still to be passed. -/
theorem Promising.passes_behind {phrase first second follow : Phrase} {state : State}
    {early late : List Token} {token : Token} {made : List Tree} {progress : Progress}
    {next : State → Progress} (h : Promising depth phrase state (early ++ token :: late))
    (hrank : first.rank ≤ phrase.rank) (hsecond : Viable second (token :: late))
    (hdeep : ∀ next : State, state.ahead = early ++ next.ahead → Deep depth second.rank next)
    (hmoves : Moves state progress.state)
    (hread : ∀ rest, Ready depth rule first (.seq second follow) state early rest →
      Completes progress state rest made)
    (hnext : Promising depth second progress.state (token :: late) →
      Passes (late.length + 1) progress.state (next progress.state).state) :
    Passes (early ++ token :: late).length state (progress.andThen next).state := by
  obtain ⟨rest, hrest⟩ := h.ahead
  have hahead : state.ahead = early ++ (token :: late ++ rest) := by
    rw [← hrest, List.append_assoc]
  have hawaits : rule.awaits (.seq second follow) token.kind = true := by
    rw [Rule.awaits, Phrase.startsWith, hsecond.starts_with]
    rfl
  have hdone := hread _
    ⟨h.recovering, h.eof, hahead, hawaits, h.deep.mono (Nat.le_refl _) hrank⟩
  have hpassed : state.ahead = early ++ progress.state.ahead := by rw [hdone.ahead, hahead]
  have hindex : progress.state.index = state.index + early.length := by
    have htotal := hmoves.total_eq
    rw [hpassed, List.length_append] at htotal
    omega
  rw [Progress.and_then_of_not_stuck hdone.stuck, List.length_append, List.length_cons]
  exact (hnext ⟨hdone.recovering, hmoves.eof_eq ▸ h.eof, ⟨rest, hdone.ahead.symm⟩, hsecond,
    hdeep _ hpassed⟩).behind hindex hdone.faults

theorem expect_passes {kinds : List Kind} {conjured : Option Kind} {site follow : Phrase}
    {stack : List Phrase} {state : State} (hahead : state.ahead ≠ [])
    (hkind : state.current.kind ∈ kinds) :
    Passes 1 state (state.expect kinds conjured site follow stack).state := by
  obtain ⟨token, rest, hcons⟩ := List.exists_cons_of_ne_nil hahead
  rw [State.expect_fits hkind]
  refine ⟨?_, [], by rw [List.append_nil, State.faults_accept], List.forall_mem_nil _⟩
  simp only [State.accept, State.settle, State.advance, hcons, Nat.le_refl]

theorem repeat_while_passes {body follow : Phrase} {step : State → Progress}
    (hnullable : body.isNullable = false) (hmoves : ∀ state, Moves state (step state).state)
    (hread : ∀ state tokens rest trees, Derives body tokens trees →
      Ready depth rule body (.seq (.star body) follow) state tokens rest →
      Completes (step state) state rest trees)
    (hstep : ∀ state token front, Promising depth body state (token :: front) →
      Passes (front.length + 1) state (step state).state)
    (rounds : Nat) {state : State} {token : Token} {front : List Token}
    (h : Promising depth (.star body) state (token :: front)) (hrounds : front.length < rounds) :
    Passes (front.length + 1) state (repeatWhile body.startsWith step rounds state).state := by
  induction rounds generalizing state token front with
  | zero => exact absurd hrounds (Nat.not_lt_zero _)
  | succ rounds ih =>
      have hcurrent := h.starts_with
      rw [Phrase.startsWith] at hcurrent
      rw [repeatWhile, if_pos hcurrent]
      rcases h.viable.star_cases with hbody | ⟨early, other, late, made, hfront, hbody, hstar⟩
      · exact (hstep state token front (h.part hbody (Nat.le_refl _))).and_then
          (repeat_while_moves hmoves rounds)
      · have hpassed := hbody.ne_nil hnullable
        have hlength := congrArg List.length hfront
        rw [List.length_cons] at hlength
        rw [hlength]
        rw [hfront] at h
        have hrank : body.rank ≤ (Phrase.star body).rank := Nat.le_refl _
        refine h.passes_behind hrank hstar
          (fun next hahead => h.deep.of_passed hahead hpassed (.star body)) (hmoves state)
          (hread state early · made hbody) fun hnext => ih hnext ?_
        have hpos := List.length_pos_iff.2 hpassed
        rw [List.length_append, List.length_cons] at hlength
        omega

/-- Tokens ahead that are viable for a phrase are passed before a fault is noted. -/
theorem Phrase.run_passes (hcall : PassesTo depth) (stack : List Phrase) (phrase follow : Phrase)
    (hends : phrase.isEndFree = true ∨ phrase.ends = true)
    (hpredictive : phrase.isPredictive rule follow = true) {state : State} {token : Token}
    {front : List Token} (h : Promising depth phrase state (token :: front)) :
    Passes (front.length + 1) state
      (phrase.run (Rule.parse depth) stack depth follow state).state := by
  induction phrase generalizing follow state token front with
  | empty =>
      obtain ⟨rest, trees, hderives⟩ := h.viable
      cases (derives_empty_iff.1 hderives).1
  | token kind =>
      obtain ⟨hkind, rfl⟩ := h.viable.token_cases
      exact expect_passes h.ahead_ne_nil (h.current_eq ▸ List.mem_singleton.2 hkind)
  | oneOf kinds =>
      obtain ⟨hkind, rfl⟩ := h.viable.one_of_cases
      exact expect_passes h.ahead_ne_nil (h.current_eq ▸ hkind)
  | rule name =>
      have hname : name ≠ .program := by
        simpa [isEndFree] using hends.resolve_right Bool.false_ne_true
      exact hcall name (follow :: stack) state token front hname h
  | seq first second ih ih' =>
      simp only [isPredictive, Bool.and_eq_true] at hpredictive
      have hfree := is_end_free_of_seq hends
      have hrank := first.rank_first_le second
      have hmoves := reading_moves depth stack first (.seq second follow) state
      rcases h.viable.seq_cases with hfirst | ⟨early, other, late, made, hfront, hfirst, hsecond⟩
      · exact (ih _ (.inl hfree.1) hpredictive.1 (h.part hfirst hrank)).and_then
          (reading_moves depth stack second follow)
      · have hlength := congrArg List.length hfront
        rw [List.length_cons] at hlength
        rw [hlength]
        rw [hfront] at h
        exact h.passes_behind hrank hsecond (fun next hahead => h.deep.second hahead hfirst)
          hmoves (fun rest hready => Phrase.run_complete Rule.parse_complete stack first _ hfree.1
            hpredictive.1 hfirst hready) fun hnext => ih' follow hfree.2 hpredictive.2 hnext
  | alt left right ih ih' =>
      simp only [isPredictive, Bool.and_eq_true] at hpredictive
      obtain ⟨⟨⟨-, hapart⟩, hpleft⟩, hpright⟩ := hpredictive
      have hfree := hends.resolve_right Bool.false_ne_true
      rw [isEndFree, Bool.and_eq_true] at hfree
      rw [run, h.sync_and_then]
      rcases h.viable.alt_cases with hviable | hviable
      · have hpart := h.part hviable (Nat.le_max_left _ _)
        rw [if_pos hpart.starts_with]
        exact ih follow (.inl hfree.1) hpleft hpart
      · have hpart := h.part hviable (Nat.le_max_right _ _)
        have hother := Kind.are_apart_iff.1 hapart _ hpart.starts_with
        rw [if_neg (ne_true_of_eq_false hother), if_pos hpart.starts_with]
        exact ih' follow (.inl hfree.2) hpright hpart
  | opt body ih =>
      simp only [isPredictive, Bool.and_eq_true] at hpredictive
      have hfree : body.isEndFree = true := hends.resolve_right Bool.false_ne_true
      have hpart := h.part h.viable.opt_body (Nat.le_refl _)
      rw [run, h.sync_and_then, if_pos hpart.starts_with]
      exact ih follow (.inl hfree) hpredictive.2 hpart
  | star body ih =>
      simp only [isPredictive, Bool.and_eq_true, Bool.not_eq_true'] at hpredictive
      have hfree : body.isEndFree = true := hends.resolve_right Bool.false_ne_true
      have hlength : front.length < depth := by
        have hle := h.ahead.length_le
        have hdepth := h.deep.length_le
        rw [List.length_cons] at hle
        omega
      exact repeat_while_passes hpredictive.1.1 (reading_moves depth stack body _)
        (fun state tokens rest trees hderives hready => Phrase.run_complete Rule.parse_complete
          stack body _ hfree hpredictive.2 hderives hready)
        (fun state token front h => ih _ (.inl hfree) hpredictive.2 h) depth h hlength
  | fork kind second left right ih ih' =>
      simp only [isPredictive, Bool.and_eq_true, decide_eq_true_eq] at hpredictive
      obtain ⟨⟨⟨⟨⟨⟨rfl, rfl⟩, rfl⟩, rfl⟩, -⟩, hpleft⟩, hpright⟩ := hpredictive
      rw [run, h.sync_and_then, h.current_eq]
      split
      · next hident =>
        -- a name alone can begin both, so whichever the token behind it decides for is viable
        dsimp only
        split
        · have hpart := h.look_ahead.part (h.viable.call_of_fork hident) (Nat.le_max_left _ _)
          exact (ih follow (.inl rfl) hpleft hpart).of_look_ahead
        · next hparen =>
          have hfront : ∀ next ∈ front.head?, next.kind ≠ .leftParen := by
            intro next hnext
            obtain ⟨front, rfl⟩ := List.head?_eq_some_iff.1 hnext
            rwa [h.look_ahead.second_eq] at hparen
          have hpart := h.look_ahead.part (h.viable.primary_of_fork hident hfront)
            (Nat.le_max_right _ _)
          exact (ih' follow (.inl rfl) hpright hpart).of_look_ahead
      · next hident =>
        rcases h.viable.fork_cases with hcall | hprimary
        · have hstarts := hcall.starts_with
          simp only [startsWith, Rule.startsWith, Rule.firstKinds, List.contains_iff_mem,
            List.mem_singleton] at hstarts
          exact absurd hstarts hident
        · have hpart := h.part hprimary (Nat.le_max_right _ _)
          rw [if_pos hprimary.starts_with]
          exact ih' follow (.inl rfl) hpright hpart

theorem Rule.parse_succ_passes (hcall : PassesTo depth) (rule : Rule) (stack : List Phrase)
    {state : State} {token : Token} {front : List Token}
    (h : Promising (depth + 1) (.rule rule) state (token :: front)) :
    Passes (front.length + 1) state (rule.parse (depth + 1) stack state).2 := by
  have hready : Promising depth rule.body state (token :: front) :=
    ⟨h.recovering, h.eof, h.ahead, viable_body_iff.1 h.viable, h.deep.body⟩
  have hbody := Phrase.run_passes hcall stack rule.body .empty rule.is_end_free_body_or_ends
    rule.is_predictive_body hready
  exact hbody.trans (Progress.close_moves .refl rule state.current stack)

theorem Rule.parse_passes (depth : Nat) : PassesTo depth := by
  induction depth with
  | zero =>
      intro rule stack state token front _ h
      exact absurd h.deep Deep.not_rule_zero
  | succ depth ih =>
      intro rule stack state token front _ h
      exact Rule.parse_succ_passes ih rule stack h

/-- Whatever rule a text is read by, no fault lies among the first tokens that begin a sentence of
the rule. -/
theorem Parse.le_fault_of_viable (entry : Rule) (lexing : Lexing) (heof : lexing.eof.kind = .eof)
    {count : Nat} (hcount : count ≤ lexing.tokens.length)
    (hviable : Viable (.rule entry) (lexing.tokens.take count)) :
    ∀ fault ∈ (lastState entry lexing).faults, count ≤ fault.index := by
  obtain ⟨depth, hdepth⟩ := depth_bound_succ lexing.tokens.length
  have hdeep := deep_start entry.rank_lt lexing.tokens lexing.eof
  have hlength : (lexing.tokens.take count).length = count := List.length_take_of_le hcount
  rw [lastState]
  rw [hdepth] at hdeep ⊢
  cases hfront : lexing.tokens.take count with
  | nil =>
      rw [hfront] at hlength
      exact fun fault _ => hlength ▸ Nat.zero_le fault.index
  | cons token front =>
      rw [hfront] at hviable hlength
      have hahead : token :: front <+: lexing.tokens := hfront ▸ List.take_prefix count _
      have hstart : Promising (depth + 1) (.rule entry) (.start lexing.tokens lexing.eof)
          (token :: front) := ⟨rfl, heof, hahead, hviable, hdeep⟩
      obtain ⟨-, later, hfaults, hlater⟩ :=
        Rule.parse_succ_passes (Rule.parse_passes depth) entry [] hstart
      intro fault hmem
      rw [hfaults] at hmem
      have hle : 0 + (front.length + 1) ≤ fault.index := hlater fault hmem
      rwa [Nat.zero_add, ← List.length_cons, hlength] at hle

end Runs

end Little
