import Little.Proofs.Parsing.Sound

/-!
# What the grammar derives is parsed without a fault

Read `Phrase.run_complete` first: from a state before tokens that a phrase derives, with a token
behind them that the grammar lets stand there, reading the phrase passes just these tokens, notes
no fault, and makes the trees of the derivation. So the grammar has one derivation at most for a
row of tokens: two of them would both be what is made.
-/

namespace Little

open Little.Tree (bareAll)

/-- `Completes progress state rest trees` says that the trees given were read from `state` on
without a new fault, and that `rest` is still ahead. -/
structure Completes (progress : Progress) (state : State) (rest : List Token) (trees : List Tree) :
    Prop where
  stuck : progress.stuck = none
  ahead : progress.state.ahead = rest
  faults : progress.state.faults = state.faults
  recovering : progress.state.recovering = false
  made : bareAll progress.made = bareAll trees

/-- A state before tokens that are to be read for a phrase, where `follow` is what `rule` expects
behind the phrase. -/
structure Ready (depth : Nat) (rule : Rule) (phrase follow : Phrase) (state : State)
    (tokens rest : List Token) : Prop where
  recovering : state.recovering = false
  eof : state.eof.kind = .eof
  ahead : state.ahead = tokens ++ rest
  awaits : rule.awaits follow (rest.headD state.eof).kind = true
  deep : Deep depth phrase.rank state

/-- Reading a rule to the depth given is complete. -/
def CompleteTo (depth : Nat) : Prop :=
  ∀ (rule : Rule) (stack : List Phrase) (state : State) (tokens rest : List Token) (tree : Tree),
    rule ≠ .program → tree.IsDerivation rule tokens →
    Ready depth rule (.rule rule) .empty state tokens rest →
    Completes
      ⟨(rule.parse depth stack state).2, [(rule.parse depth stack state).1], none⟩ state rest [tree]

namespace State

theorem expect_fits {kinds : List Kind} {conjured : Option Kind} {site follow : Phrase}
    {stack : List Phrase} {state : State} (h : state.current.kind ∈ kinds) :
    state.expect kinds conjured site follow stack =
      ⟨state.accept, [.leaf state.current], none⟩ := by
  rw [expect, if_pos (by simpa using h)]

/-- Before a choice that the token in view fits nothing is done. -/
theorem sync_and_then_fits {site : Phrase} {state : State}
    (h : site.isNullable = true ∨ site.startsWith state.current.kind = true)
    (next : State → Progress) : (state.sync site).andThen next = next state := by
  have hsync : state.sync site = ⟨state, [], none⟩ := by
    rw [sync, if_pos]
    rcases h with h | h <;> simp [h]
  rw [hsync]
  rfl

@[simp] theorem recovering_accept (state : State) : state.accept.recovering = false := by
  simp [accept, settle]

@[simp] theorem faults_accept (state : State) : state.accept.faults = state.faults := by
  simp [accept, settle]

end State

theorem Progress.and_then_of_not_stuck {progress : Progress} (h : progress.stuck = none)
    (next : State → Progress) :
    progress.andThen next =
      { next progress.state with made := progress.made ++ (next progress.state).made } := by
  simp only [andThen, h]

theorem Completes.and_then {progress : Progress} {state : State} {middle rest : List Token}
    {front back : List Tree} {next : State → Progress}
    (h : Completes progress state middle front)
    (hnext : Completes (next progress.state) progress.state rest back) :
    Completes (progress.andThen next) state rest (front ++ back) := by
  rw [Progress.and_then_of_not_stuck h.stuck]
  exact ⟨hnext.stuck, hnext.ahead, hnext.faults.trans h.faults, hnext.recovering, by
    simp only [Tree.bare_all_append, h.made, hnext.made]⟩

/-- Looking ahead first makes no difference. -/
theorem Completes.of_look_ahead {progress : Progress} {state : State} {rest : List Token}
    {trees : List Tree} (h : Completes progress state.lookAhead rest trees) :
    Completes progress state rest trees :=
  ⟨h.stuck, h.ahead, h.faults, h.recovering, h.made⟩

namespace Ready

variable {depth : Nat} {rule : Rule} {phrase follow : Phrase} {state : State}
  {tokens rest : List Token}

theorem current_cons {token : Token}
    (h : Ready depth rule phrase follow state (token :: tokens) rest) : state.current = token :=
  State.current_of_ahead h.ahead

theorem current_nil (h : Ready depth rule phrase follow state [] rest) :
    state.current = rest.headD state.eof := by
  have hahead := h.ahead
  rw [List.nil_append] at hahead
  rw [State.current, hahead]

/-- The token behind the one in view is the next one to be read, or stands behind them. -/
theorem second_cons {token : Token}
    (h : Ready depth rule phrase follow state (token :: tokens) rest) :
    state.lookAhead.second = (tokens ++ rest).headD state.eof := by
  simp only [State.second, State.lookAhead, h.ahead, List.cons_append, List.tail_cons]

/-- Before tokens to be read a choice is made at once: the token in view fits the place. -/
theorem sync_and_then {trees : List Tree} (h : Ready depth rule phrase follow state tokens rest)
    (hderives : Derives phrase tokens trees) (next : State → Progress) :
    (state.sync (.seq phrase follow)).andThen next = next state := by
  have hfits : (Phrase.seq phrase follow).isNullable = true ∨
      (Phrase.seq phrase follow).startsWith state.current.kind = true := by
    cases tokens with
    | nil =>
        have hawaits := h.awaits
        rw [← h.current_nil, Rule.awaits, Bool.or_eq_true, Bool.and_eq_true] at hawaits
        rcases hawaits with hstarts | ⟨hnullable, -⟩
        · exact .inr (by simp [Phrase.startsWith, hderives.is_nullable, hstarts])
        · exact .inl (by simp [Phrase.isNullable, hderives.is_nullable, hnullable])
    | cons token tokens =>
        have hstarts := hderives.starts_with
        rw [← h.current_cons] at hstarts
        exact .inr (by simp [Phrase.startsWith, hstarts])
  exact State.sync_and_then_fits hfits next

/-- What a phrase that is not nullable derives begins with the token in view. -/
theorem starts_with {other : Phrase} {trees : List Tree}
    (h : Ready depth rule phrase follow state tokens rest) (hderives : Derives other tokens trees)
    (hnullable : other.isNullable = false) : other.startsWith state.current.kind = true := by
  cases tokens with
  | nil => exact absurd rfl (hderives.ne_nil hnullable)
  | cons token tokens => rw [h.current_cons, hderives.starts_with]

/-- A phrase of no higher rank is ready where the first one was. -/
theorem part {other : Phrase} (h : Ready depth rule phrase follow state tokens rest)
    (hrank : other.rank ≤ phrase.rank) : Ready depth rule other follow state tokens rest :=
  ⟨h.recovering, h.eof, h.ahead, h.awaits, h.deep.mono (Nat.le_refl _) hrank⟩

/-- Looking ahead changes nothing here. -/
theorem look_ahead (h : Ready depth rule phrase follow state tokens rest) :
    Ready depth rule phrase follow state.lookAhead tokens rest :=
  ⟨h.recovering, h.eof, h.ahead, h.awaits, h.deep⟩

/-- The first part of a sequence is ready where the sequence is. -/
theorem first {first second : Phrase} {front back : List Token} {trees : List Tree}
    (h : Ready depth rule (.seq first second) follow state (front ++ back) rest)
    (hsecond : Derives second back trees) :
    Ready depth rule first (.seq second follow) state front (back ++ rest) :=
  ⟨h.recovering, h.eof, by rw [h.ahead, List.append_assoc], hsecond.awaits_seq h.awaits,
    h.deep.first⟩

/-- The second part of a sequence is ready where the first has been read. -/
theorem second {first second : Phrase} {front back : List Token} {made trees : List Tree}
    {progress : Progress}
    (h : Ready depth rule (.seq first second) follow state (front ++ back) rest)
    (hfirst : Derives first front made) (hmoves : Moves state progress.state)
    (hread : Completes progress state (back ++ rest) trees) :
    Ready depth rule second follow progress.state back rest := by
  have hahead : state.ahead = front ++ progress.state.ahead := by
    rw [h.ahead, hread.ahead, List.append_assoc]
  exact ⟨hread.recovering, hmoves.eof_eq ▸ h.eof, hread.ahead, hmoves.eof_eq ▸ h.awaits,
    h.deep.second hahead hfirst⟩

end Ready

section Runs

variable {depth : Nat} {rule : Rule}

/-- The token expected is read where it is there. -/
theorem expect_completes {kinds : List Kind} {conjured : Option Kind} {site follow : Phrase}
    {stack : List Phrase} {state : State} {token : Token} {rest : List Token}
    (hahead : state.ahead = token :: rest) (hkind : token.kind ∈ kinds) :
    Completes (state.expect kinds conjured site follow stack) state rest [.leaf token] := by
  have hcurrent := State.current_of_ahead hahead
  rw [State.expect_fits (hcurrent.symm ▸ hkind), hcurrent]
  exact ⟨rfl, State.ahead_accept hahead, State.faults_accept state, State.recovering_accept state,
    rfl⟩

/-- A repetition is read to its end if each round is: it goes on as long as there is a round to
read, and stops before a token that can only stand behind. -/
theorem repeat_while_completes {body follow : Phrase} {step : State → Progress}
    (hnullable : body.isNullable = false)
    (hapart : Kind.areApart (body.startsWith ·) (rule.awaits follow) = true)
    (hmoves : ∀ state, Moves state (step state).state)
    (hstep : ∀ state tokens rest trees, Derives body tokens trees →
      Ready depth rule body (.seq (.star body) follow) state tokens rest →
      Completes (step state) state rest trees)
    (rounds : Nat) {state : State} {tokens rest : List Token} {trees : List Tree}
    (hderives : Derives (.star body) tokens trees)
    (hready : Ready depth rule (.star body) follow state tokens rest)
    (hrounds : tokens.length ≤ rounds) :
    Completes (repeatWhile body.startsWith step rounds state) state rest trees := by
  have hstop {state : State} (hready : Ready depth rule (.star body) follow state [] rest) :
      Completes ⟨state, [], none⟩ state rest [] :=
    ⟨rfl, hready.ahead, rfl, hready.recovering, rfl⟩
  induction rounds generalizing state tokens trees with
  | zero =>
      -- no rounds are left because no tokens are
      obtain rfl := List.eq_nil_of_length_eq_zero (Nat.le_zero.1 hrounds)
      rcases derives_star_iff.1 hderives with ⟨-, rfl⟩ | ⟨_, _, _, _, hnil, -, hbody, -⟩
      · exact hstop hready
      · exact absurd (List.append_eq_nil_iff.1 hnil.symm).1 (hbody.ne_nil hnullable)
  | succ rounds ih =>
      rcases derives_star_iff.1 hderives with
        ⟨rfl, rfl⟩ | ⟨front, back, made, after, rfl, rfl, hbody, hstar⟩
      · have hleaves := Kind.are_apart_iff.1 hapart _ hready.awaits
        rw [repeatWhile, hready.current_nil, if_neg (ne_true_of_eq_false hleaves)]
        exact hstop hready
      · obtain ⟨token, front, rfl⟩ := List.exists_cons_of_ne_nil (hbody.ne_nil hnullable)
        rw [repeatWhile, hready.current_cons, if_pos hbody.starts_with]
        have hfirst : Ready depth rule body (.seq (.star body) follow) state (token :: front)
            (back ++ rest) :=
          ⟨hready.recovering, hready.eof, by rw [hready.ahead, List.append_assoc],
            hstar.awaits_seq hready.awaits, hready.deep⟩
        have hround := hstep state _ _ _ hbody hfirst
        have hahead : state.ahead = token :: front ++ (step state).state.ahead := by
          rw [hfirst.ahead, hround.ahead]
        have hnext : Ready depth rule (.star body) follow (step state).state back rest :=
          ⟨hround.recovering, (hmoves state).eof_eq ▸ hready.eof, hround.ahead,
            (hmoves state).eof_eq ▸ hready.awaits,
            hready.deep.of_passed hahead (List.cons_ne_nil _ _) (.star body)⟩
        refine hround.and_then (ih hstar hnext ?_)
        rw [List.length_append, List.length_cons] at hrounds
        omega

/-- Tokens that a phrase derives are read for it without a fault, as the trees of the
derivation. -/
theorem Phrase.run_complete (hcall : CompleteTo depth) (stack : List Phrase)
    (phrase follow : Phrase) (hfree : phrase.isEndFree = true)
    (hpredictive : phrase.isPredictive rule follow = true) {state : State}
    {tokens rest : List Token} {trees : List Tree} (hderives : Derives phrase tokens trees)
    (hready : Ready depth rule phrase follow state tokens rest) :
    Completes (phrase.run (Rule.parse depth) stack depth follow state) state rest trees := by
  induction phrase generalizing follow state tokens rest trees with
  | empty =>
      obtain ⟨rfl, rfl⟩ := derives_empty_iff.1 hderives
      exact ⟨rfl, hready.ahead, rfl, hready.recovering, rfl⟩
  | token kind =>
      obtain ⟨token, hkind, rfl, rfl⟩ := derives_token_iff.1 hderives
      exact expect_completes hready.ahead (List.mem_singleton.2 hkind)
  | oneOf kinds =>
      obtain ⟨token, hkind, rfl, rfl⟩ := derives_one_of_iff.1 hderives
      exact expect_completes hready.ahead hkind
  | rule name =>
      obtain ⟨start, stop, children, rfl, hbody⟩ := derives_rule_iff.1 hderives
      have hprecedes := Kind.is_within_iff.1 hpredictive _ hready.awaits
      have hname : Ready depth name (.rule name) .empty state tokens rest :=
        ⟨hready.recovering, hready.eof, hready.ahead, by
          simpa [Rule.awaits, startsWith, isNullable] using hprecedes, hready.deep⟩
      exact hcall name (follow :: stack) state tokens rest _ (by simpa [isEndFree] using hfree)
        (.rule start stop hbody) hname
  | seq first second ih ih' =>
      simp only [isEndFree, isPredictive, Bool.and_eq_true] at hfree hpredictive
      obtain ⟨front, back, made, after, rfl, rfl, hfirst, hsecond⟩ := derives_seq_iff.1 hderives
      have hread := ih (.seq second follow) hfree.1 hpredictive.1 hfirst (hready.first hsecond)
      exact hread.and_then (ih' follow hfree.2 hpredictive.2 hsecond
        (hready.second hfirst (reading_moves depth stack first _ state) hread))
  | alt left right ih ih' =>
      simp only [isEndFree, isPredictive, Bool.and_eq_true, Bool.not_eq_true'] at hfree hpredictive
      obtain ⟨⟨⟨⟨hleft, hright⟩, hapart⟩, hpleft⟩, hpright⟩ := hpredictive
      rw [run, hready.sync_and_then hderives]
      rcases derives_alt_iff.1 hderives with hderives | hderives
      · rw [if_pos (hready.starts_with hderives hleft)]
        exact ih follow hfree.1 hpleft hderives (hready.part (Nat.le_max_left _ _))
      · have hstarts := hready.starts_with hderives hright
        have hother := Kind.are_apart_iff.1 hapart _ hstarts
        rw [if_neg (ne_true_of_eq_false hother), if_pos hstarts]
        exact ih' follow hfree.2 hpright hderives (hready.part (Nat.le_max_right _ _))
  | opt body ih =>
      simp only [isPredictive, Bool.and_eq_true, Bool.not_eq_true'] at hpredictive
      obtain ⟨⟨hnullable, hapart⟩, hbody⟩ := hpredictive
      rw [run, hready.sync_and_then hderives]
      rcases derives_opt_iff.1 hderives with ⟨rfl, rfl⟩ | hderives
      · have hleaves := Kind.are_apart_iff.1 hapart _ hready.awaits
        rw [← hready.current_nil] at hleaves
        rw [if_neg (ne_true_of_eq_false hleaves)]
        exact ⟨rfl, hready.ahead, rfl, hready.recovering, rfl⟩
      · rw [if_pos (hready.starts_with hderives hnullable)]
        exact ih follow hfree hbody hderives (hready.part (Nat.le_refl _))
  | star body ih =>
      simp only [isPredictive, Bool.and_eq_true, Bool.not_eq_true'] at hpredictive
      obtain ⟨⟨hnullable, hapart⟩, hbody⟩ := hpredictive
      refine repeat_while_completes hnullable hapart (reading_moves depth stack body _)
        (fun state tokens rest trees hderives hready => ih _ hfree hbody hderives hready) depth
        hderives hready ?_
      have hlength := hready.deep.length_le
      rw [hready.ahead, List.length_append] at hlength
      omega
  | fork kind second left right ih ih' =>
      simp only [isEndFree, isPredictive, Bool.and_eq_true, Bool.not_eq_true',
        decide_eq_true_eq] at hfree hpredictive
      obtain ⟨⟨⟨⟨⟨⟨rfl, rfl⟩, rfl⟩, rfl⟩, hparen⟩, hpleft⟩, hpright⟩ := hpredictive
      rw [run, hready.sync_and_then hderives]
      rcases derives_fork_iff.1 hderives with hderives | hderives
      · obtain ⟨name, paren, tokens, rfl, hname, hsecond⟩ := hderives.exists_call
        have hnext : state.lookAhead.second = paren := hready.second_cons
        rw [if_pos (by rw [hready.current_cons, hname])]
        dsimp only
        rw [if_pos (by rw [hnext, hsecond])]
        exact (ih follow hfree.1 hpleft hderives
          (hready.look_ahead.part (Nat.le_max_left _ _))).of_look_ahead
      · have hstarts := hready.starts_with hderives rfl
        split
        · next hkind =>
          -- an identifier alone, and what may stand behind it is no parenthesis
          obtain ⟨token, tokens, rfl⟩ := List.exists_cons_of_ne_nil (hderives.ne_nil rfl)
          rw [hready.current_cons] at hkind
          obtain rfl := hderives.eq_singleton_of_primary hkind
          have hnext : state.lookAhead.second = rest.headD state.eof := hready.second_cons
          have hprimary : state.lookAhead.second.kind ≠ .leftParen := by
            intro hcall
            have hawaits := hready.awaits
            rw [← hnext, hcall, hparen] at hawaits
            exact absurd hawaits Bool.false_ne_true
          dsimp only
          rw [if_neg hprimary]
          exact (ih' follow hfree.2 hpright hderives
            (hready.look_ahead.part (Nat.le_max_right _ _))).of_look_ahead
        · exact ih' follow hfree.2 hpright hderives (hready.part (Nat.le_max_right _ _))

/-- What a rule's right-hand side was read as in full is its node. -/
theorem Completes.close {progress : Progress} {state : State} {rest : List Token}
    {children : List Tree} (h : Completes progress state rest children) (rule : Rule)
    (token start : Token) (stop : Option Token) (stack : List Phrase) :
    Completes ⟨(progress.close rule token stack).2, [(progress.close rule token stack).1], none⟩
      state rest [.node rule start stop children] := by
  have hclose : progress.close rule token stack =
      (.node rule token progress.state.previous progress.made, progress.state) := by
    rw [Progress.close, h.stuck]
  rw [hclose]
  exact ⟨rfl, h.ahead, h.faults, h.recovering, by simp only [bareAll, Tree.bare, h.made]⟩

/-- Tokens that a rule derives are read by it without a fault, as the tree of the derivation. -/
theorem Rule.parse_complete : CompleteTo depth := by
  induction depth with
  | zero =>
      intro rule stack state tokens rest tree _ _ hready
      exact absurd hready.deep Deep.not_rule_zero
  | succ depth ih =>
      intro rule stack state tokens rest tree hrule htree hready
      obtain ⟨start, stop, children, rfl, hbody⟩ := Tree.is_derivation_iff.1 htree
      have hready : Ready depth rule rule.body .empty state tokens rest :=
        ⟨hready.recovering, hready.eof, hready.ahead, hready.awaits, hready.deep.body⟩
      exact (Phrase.run_complete ih stack rule.body .empty (Rule.is_end_free_body hrule)
        rule.is_predictive_body hbody hready).close rule _ start stop stack

/-- What derives from a phrase that ends with the end mark ends with such a mark. -/
theorem Derives.exists_end {phrase : Phrase} {tokens : List Token} {trees : List Tree}
    (h : Derives phrase tokens trees) (hends : phrase.ends = true) :
    ∃ init last, tokens = init ++ [last] := by
  induction h with
  | token token => exact ⟨[], token, rfl⟩
  | @seq first second front _ _ _ _ _ _ ih =>
      rw [Phrase.ends, Bool.and_eq_true] at hends
      obtain ⟨init, last, rfl⟩ := ih hends.2
      exact ⟨front ++ init, last, (List.append_assoc _ _ _).symm⟩
  | _ => exact absurd hends Bool.false_ne_true

/-- All tokens with the end mark behind them are read without a fault for a phrase that derives
them and ends with the mark. -/
theorem Phrase.run_complete_end (stack : List Phrase) (phrase follow : Phrase)
    (hends : phrase.ends = true) (hpredictive : phrase.isPredictive rule follow = true)
    (hawaits : rule.awaits follow .eof = true) {state : State} {trees : List Tree}
    (hrecovering : state.recovering = false) (heof : state.eof.kind = .eof)
    (hdeep : Deep depth phrase.rank state)
    (hderives : Derives phrase (state.ahead ++ [state.eof]) trees) :
    Completes (phrase.run (Rule.parse depth) stack depth follow state) state [] trees := by
  induction phrase generalizing follow state trees with
  | token kind =>
      obtain ⟨token, hkind, htokens, rfl⟩ := derives_token_iff.1 hderives
      obtain ⟨hahead, htoken⟩ := List.append_inj' (htokens.trans (List.nil_append _).symm) rfl
      obtain rfl := List.cons.inj htoken |>.1
      have hcurrent := State.current_of_nil hahead
      rw [run, State.expect_fits (by rw [hcurrent, hkind]; exact List.mem_singleton_self _),
        hcurrent]
      exact ⟨rfl, by simp only [State.accept, State.settle, State.advance, hahead],
        State.faults_accept state, State.recovering_accept state, rfl⟩
  | seq first second ih ih' =>
      simp only [ends, isPredictive, Bool.and_eq_true] at hends hpredictive
      obtain ⟨front, back, made, after, htokens, rfl, hfirst, hsecond⟩ :=
        derives_seq_iff.1 hderives
      -- the second part ends with the mark, so the first stands for tokens ahead only
      obtain ⟨init, last, rfl⟩ := hsecond.exists_end hends.2
      rw [← List.append_assoc] at htokens
      obtain ⟨hahead, hlast⟩ := List.append_inj' htokens rfl
      obtain rfl := List.cons.inj hlast |>.1
      have hready : Ready depth rule first (.seq second follow) state front init := by
        refine ⟨hrecovering, heof, hahead, ?_, hdeep.first⟩
        have hnext : rule.awaits (.seq second follow)
            ((init ++ [state.eof] ++ []).headD state.eof).kind = true :=
          hsecond.awaits_seq (by simpa only [List.headD_nil, heof] using hawaits)
        cases init with
        | nil => exact hnext
        | cons token init => exact hnext
      have hread := Phrase.run_complete Rule.parse_complete stack first (.seq second follow)
        hends.1 hpredictive.1 hfirst hready
      have hmoves := reading_moves depth stack first (.seq second follow) state
      have hpassed : state.ahead = front ++ (first.run (Rule.parse depth) stack depth
          (.seq second follow) state).state.ahead := by rw [hread.ahead, hahead]
      exact hread.and_then (ih' follow hends.2 hpredictive.2 hawaits hread.recovering
        (hmoves.eof_eq ▸ heof) (hdeep.second hpassed hfirst)
        (by rw [hread.ahead, hmoves.eof_eq]; exact hsecond))
  | empty | oneOf | rule | alt | opt | star | fork => exact absurd hends Bool.false_ne_true

/-- All tokens with the end mark behind them are read without a fault as a program if they derive
from it. -/
theorem Rule.parse_program_complete {stack : List Phrase} {state : State} {tree : Tree}
    (hrecovering : state.recovering = false) (heof : state.eof.kind = .eof)
    (hdeep : Deep (depth + 1) (Phrase.rule .program).rank state)
    (htree : tree.IsDerivation .program (state.ahead ++ [state.eof])) :
    Completes
      ⟨(Rule.program.parse (depth + 1) stack state).2,
        [(Rule.program.parse (depth + 1) stack state).1], none⟩ state [] [tree] := by
  obtain ⟨start, stop, children, rfl, hbody⟩ := Tree.is_derivation_iff.1 htree
  exact (Phrase.run_complete_end stack Rule.program.body .empty Rule.ends_body_program
    Rule.program.is_predictive_body Rule.program.precedes_eof hrecovering heof hdeep.body
    hbody).close .program _ start stop stack

end Runs

end Little
