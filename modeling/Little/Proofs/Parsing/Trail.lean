import Little.Proofs.Parsing.Exact

/-!
# What the parser leaves behind

A `Trail` is a way of the parser from one state to another together with the trees it makes on the
way. It is put together from a few steps, each with the leaf that it leaves, if any, and whatever is
read leaves a trail (`Rule.parse_trail`). So what each step keeps is kept by every parse, with or
without faults.

Two such things are shown here. A token that is passed leaves its leaf, and nothing else does
(`Trail.ahead_eq`), so the leaves of a tree are the tokens from the first on, each once and in
order. And what the parser reports are faults in the order of tokens only (`Trail.syntactic`).
`leaves_eq_tokens` puts this together for whole texts: a program is always read to its last token,
so no token of it is lost and no lexical error is left out.
-/

namespace Little

/-- `Trail state trees next` says that on a way from `state` to `next` the trees are made, from left
to right. -/
inductive Trail : State → List Tree → State → Prop where
  | stay (state : State) : Trail state [] state
  | lookAhead (state : State) : Trail state [] state.lookAhead
  | accept (state : State) : Trail state [.leaf state.current] state.accept
  | delete (state : State) (expected : List Kind) :
      Trail state [.skipped state.current] (state.delete expected)
  | report (state : State) (problem : Problem) :
      problem.phase = .syntactic → Trail state [] (state.report problem)
  | conjure (state : State) (kind : Kind) : Trail state [state.conjure kind] state
  | pass (state : State) : Trail state [.skipped state.current] state.advance
  | stall (state : State) (site : Site) :
      Trail state []
        { state with stalledAt := some state.index, stalledIn := state.stalledIn ++ [site] }
  /-- A node leaves what its parts leave. -/
  | node {state next : State} {trees : List Tree} (rule : Rule) (start : Token)
      (stop : Option Token) :
      Trail state trees next → Trail state [.node rule start stop trees] next
  | append {state middle next : State} {front back : List Tree} :
      Trail state front middle → Trail middle back next → Trail state (front ++ back) next

/-- The trees of a progress are what was left on the way to its state. -/
def Progress.IsTrail (progress : Progress) (start : State) : Prop :=
  Trail start progress.made progress.state

namespace Trail

/-- A step that leaves no tree may come first. -/
theorem behind {state middle next : State} {trees : List Tree} (h : Trail state [] middle)
    (hrest : Trail middle trees next) : Trail state trees next := h.append hrest

/-- A step that leaves no tree may come last. -/
theorem before {state middle next : State} {trees : List Tree} (h : Trail state trees middle)
    (hrest : Trail middle [] next) : Trail state trees next := by
  have happend := h.append hrest
  rwa [List.append_nil] at happend

end Trail

namespace State

@[simp] theorem ahead_advance (state : State) : state.advance.ahead = state.ahead.tail := by
  unfold advance
  split
  · next hahead => rw [hahead, List.tail_nil]
  · next hahead => rw [hahead, List.tail_cons]

@[simp] theorem ahead_delete (state : State) (expected : List Kind) :
    (state.delete expected).ahead = state.ahead.tail := by
  simp only [delete, settle, ahead_advance, ahead_report]

/-- Behind the token that is deleted stands the one looked at before. -/
theorem current_delete (state : State) (expected : List Kind) :
    (state.delete expected).current = state.second := by
  rw [current, ahead_delete, second]
  simp only [delete, settle, eof_advance, eof_report]

theorem expect_trail (kinds : List Kind) (conjured : Option Kind) (site follow : Phrase)
    (stack : List Phrase) (state : State) :
    (state.expect kinds conjured site follow stack).IsTrail state := by
  have hlook := Trail.lookAhead state
  unfold expect Progress.IsTrail
  split
  · exact .accept state
  · dsimp only
    split
    · have haccept := Trail.accept (state.lookAhead.delete kinds)
      rw [current_delete] at haccept
      exact hlook.behind ((Trail.delete state.lookAhead kinds).append haccept)
    · split
      · have hreport : Trail state.lookAhead [] (state.lookAhead.report (.missing kinds)) :=
          .report _ _ rfl
        cases conjured with
        | none => exact hlook.behind hreport
        | some kind => exact hlook.behind ((Trail.conjure state.lookAhead kind).before hreport)
      · exact hlook

theorem sync_trail (site : Phrase) (state : State) : (state.sync site).IsTrail state := by
  unfold sync Progress.IsTrail
  split
  · exact .stay state
  · dsimp only
    split
    · exact (Trail.lookAhead state).behind (.delete _ _)
    · exact .lookAhead state

theorem unstall_trail (site : Site) (state : State) :
    Trail state (state.unstall site).1 (state.unstall site).2 := by
  unfold unstall
  split
  · exact .pass state
  · exact .stay state

theorem skip_while_trail (state : State) (skips : Kind → Bool) :
    Trail state (state.skipWhile skips).1 (state.skipWhile skips).2 := by
  unfold skipWhile
  generalize hahead : state.ahead = ahead
  induction ahead generalizing state with
  | nil => exact .stay state
  | cons token ahead ih =>
      rw [List.takeWhile_cons]
      split
      · have hcurrent : state.current = token := current_of_ahead hahead
        have hadvance : state.advance.ahead = ahead := by
          rw [ahead_advance, hahead, List.tail_cons]
        have hpass := Trail.pass state
        rw [hcurrent] at hpass
        exact hpass.append (ih state.advance hadvance)
      · exact .stay state

theorem recover_trail (site : Site) (stack : List Phrase) (state : State) :
    Trail state (state.recover site stack).1 (state.recover site stack).2 := by
  have hreport : Trail state [] (state.report (.mismatched site.left.firstKinds)) :=
    .report state _ rfl
  have hunstall := unstall_trail site (state.report (.mismatched site.left.firstKinds))
  exact ((hreport.behind hunstall).before (.stall _ site)).append
    (skip_while_trail _ fun kind => !stack.any (·.startsWith kind))

end State

namespace Progress

theorem IsTrail.and_then {start : State} {progress : Progress} {next : State → Progress}
    (h : progress.IsTrail start) (hnext : ∀ state, (next state).IsTrail state) :
    (progress.andThen next).IsTrail start := by
  unfold andThen
  split
  · exact h
  · exact h.append (hnext progress.state)

theorem IsTrail.close {start : State} {progress : Progress} (h : progress.IsTrail start)
    (rule : Rule) (token : Token) (stack : List Phrase) :
    Trail start [(progress.close rule token stack).1] (progress.close rule token stack).2 := by
  unfold Progress.close
  split
  · exact .node rule token _ h
  · exact .node rule token _ (h.append (State.recover_trail _ stack _))

end Progress

theorem repeat_while_trail {enters : Kind → Bool} {step : State → Progress}
    (hstep : ∀ state, (step state).IsTrail state) (rounds : Nat) (state : State) :
    (repeatWhile enters step rounds state).IsTrail state := by
  induction rounds generalizing state with
  | zero => exact .stay state
  | succ rounds ih =>
      unfold repeatWhile
      split
      · exact (hstep state).and_then ih
      · exact .stay state

theorem Phrase.run_trail {call : Rule → List Phrase → State → Tree × State}
    (hcall : ∀ rule stack state, Trail state [(call rule stack state).1] (call rule stack state).2)
    (stack : List Phrase) (rounds : Nat) (phrase follow : Phrase) (state : State) :
    (phrase.run call stack rounds follow state).IsTrail state := by
  induction phrase generalizing follow state with
  | empty => exact .stay state
  | token kind => exact State.expect_trail _ _ _ _ _ _
  | oneOf kinds => exact State.expect_trail _ _ _ _ _ _
  | rule name => exact hcall name (follow :: stack) state
  | seq first second ih ih' => exact (ih _ state).and_then (ih' follow)
  | alt left right ih ih' =>
      refine (State.sync_trail _ state).and_then fun state => ?_
      split
      · exact ih follow state
      · split
        · exact ih' follow state
        · exact .stay state
  | opt body ih =>
      refine (State.sync_trail _ state).and_then fun state => ?_
      split
      · exact ih follow state
      · exact .stay state
  | star body ih => exact repeat_while_trail (ih _) rounds state
  | fork kind second left right ih ih' =>
      refine (State.sync_trail _ state).and_then fun state => ?_
      split
      · dsimp only
        split
        · exact (Trail.lookAhead state).behind (ih follow _)
        · exact (Trail.lookAhead state).behind (ih' follow _)
      · split
        · exact ih' follow state
        · exact .stay state

/-- Reading a rule leaves a trail, which is its tree. -/
theorem Rule.parse_trail (depth : Nat) (rule : Rule) (stack : List Phrase) (state : State) :
    Trail state [(rule.parse depth stack state).1] (rule.parse depth stack state).2 := by
  induction depth generalizing rule stack state with
  | zero => exact .node rule state.current _ (.stay state)
  | succ depth ih =>
      exact Progress.IsTrail.close (Phrase.run_trail ih stack depth _ _ state) _ _ _

theorem reading_trail (depth : Nat) (stack : List Phrase) (phrase follow : Phrase)
    (state : State) : (phrase.run (Rule.parse depth) stack depth follow state).IsTrail state :=
  Phrase.run_trail (Rule.parse_trail depth) stack depth phrase follow state

namespace Tree

/-- The token of the text at a leaf. The mark at the end is no token of the text, and a leaf for a
token that is not there has none. -/
def passed? : Tree → Option Token
  | .leaf token | .skipped token => if token.kind = .eof then none else some token
  | .missing .. | .node .. => none

/-- The tokens of the text at the leaves of a row of trees, from left to right. -/
def passedAll (trees : List Tree) : List Token := (leavesAll trees).filterMap passed?

@[simp] theorem passed_all_append (front back : List Tree) :
    passedAll (front ++ back) = passedAll front ++ passedAll back := by
  simp only [passedAll, leaves_all_append, List.filterMap_append]

@[simp] theorem passed_all_node (rule : Rule) (start : Token) (stop : Option Token)
    (children : List Tree) : passedAll [.node rule start stop children] = passedAll children := by
  simp only [passedAll, leavesAll, leaves, List.append_nil]

end Tree

namespace State

/-- The mark at the end is one, and no token ahead is. -/
structure Marked (state : State) : Prop where
  eof : state.eof.kind = .eof
  ahead : ∀ token ∈ state.ahead, token.kind ≠ .eof

variable {state : State}

/-- Before the tokens of a text it is so. -/
theorem marked_start (source : String) :
    (start (Lexing.ofSource source).tokens (Lexing.ofSource source).eof).Marked :=
  ⟨Lexing.kind_eof_of_source source, Lexing.kind_ne_eof_of_mem⟩

theorem Marked.of_suffix {next : State} (h : state.Marked) (heof : next.eof = state.eof)
    (hahead : next.ahead <:+ state.ahead) : next.Marked :=
  ⟨heof ▸ h.eof, fun token hmem => h.ahead token (hahead.subset hmem)⟩

/-- Where the mark at the end is in view, the text has ended. -/
theorem Marked.ahead_eq_nil (h : state.Marked) (hcurrent : state.current.kind = .eof) :
    state.ahead = [] := by
  cases hahead : state.ahead with
  | nil => rfl
  | cons token ahead =>
      rw [current_of_ahead hahead] at hcurrent
      exact absurd hcurrent (h.ahead token (hahead ▸ List.mem_cons_self))

/-- The token in view is the next one of the text, unless the text has ended. -/
theorem Marked.ahead_eq (h : state.Marked) :
    state.ahead = (if state.current.kind = .eof then [] else [state.current]) ++
      state.ahead.tail := by
  cases hahead : state.ahead with
  | nil => rw [current_of_nil hahead, h.eof, if_pos rfl]; rfl
  | cons token ahead =>
      have htoken := h.ahead token (hahead ▸ List.mem_cons_self)
      rw [current_of_ahead hahead, if_neg htoken]
      rfl

theorem Marked.ahead_eq_leaf (h : state.Marked) :
    state.ahead = Tree.passedAll [.leaf state.current] ++ state.ahead.tail := by
  have hahead := h.ahead_eq
  split at hahead
  · next hkind => simpa [Tree.passedAll, Tree.leavesAll, Tree.leaves, Tree.passed?, hkind]
  · next hkind => simpa [Tree.passedAll, Tree.leavesAll, Tree.leaves, Tree.passed?, hkind]

end State

namespace State

theorem syntactic_report {state : State} {problem : Problem}
    (hfaults : ∀ fault ∈ state.faults, fault.problem.phase = .syntactic)
    (hproblem : problem.phase = .syntactic) :
    ∀ fault ∈ (state.report problem).faults, fault.problem.phase = .syntactic := by
  unfold report
  split
  · exact hfaults
  · intro fault hmem
    rcases List.mem_append.1 hmem with hmem | hmem
    · exact hfaults fault hmem
    · rw [List.mem_singleton.1 hmem]
      exact hproblem

/-- Where nothing is expected behind the mark at the end, it is read behind the last token only. -/
theorem ahead_of_expect_eof {state : State} (hmarked : state.Marked) {site : Phrase}
    {conjured : Option Kind}
    (hdone : (state.expect [.eof] conjured site .empty []).stuck = none) :
    (state.expect [.eof] conjured site .empty []).state.ahead = [] := by
  unfold expect at hdone ⊢
  split
  · next hcurrent =>
    have hahead := hmarked.ahead_eq_nil (by simpa using hcurrent)
    rw [accept, ahead_advance, settle, hahead, List.tail_nil]
  · next hcurrent =>
    rw [if_neg hcurrent] at hdone
    dsimp only at hdone ⊢
    split
    · next hsecond =>
      have hpassed : state.advance.Marked :=
        hmarked.of_suffix state.eof_advance (state.ahead_advance ▸ List.tail_suffix _)
      have hview : state.advance.current = state.lookAhead.second := by
        rw [current, ahead_advance, eof_advance]
        rfl
      have hahead := hpassed.ahead_eq_nil (by simpa [hview] using hsecond)
      rw [ahead_advance] at hahead
      rw [accept, ahead_advance, settle, ahead_delete]
      show state.ahead.tail.tail = []
      rw [hahead, List.tail_nil]
    · next hsecond =>
      -- nothing but the mark itself may stand where the mark is expected
      have hadmits : admits state.lookAhead.current.kind [.empty] = false := by
        show (false || (true && decide (state.current.kind = .eof))) = false
        simpa using hcurrent
      rw [if_neg hsecond, hadmits, if_neg Bool.false_ne_true] at hdone
      cases hdone

theorem ahead_skip_while (state : State) (skips : Kind → Bool) :
    (state.skipWhile skips).2.ahead = state.ahead.dropWhile fun token => skips token.kind := by
  unfold skipWhile
  generalize hahead : state.ahead = ahead
  induction ahead generalizing state with
  | nil => exact hahead
  | cons token ahead ih =>
      rw [List.takeWhile_cons, List.dropWhile_cons]
      split
      · exact ih state.advance (by rw [ahead_advance, hahead, List.tail_cons])
      · exact hahead

/-- Where no rule above can go on, all tokens are passed. -/
theorem ahead_of_recover (site : Site) (state : State) :
    (state.recover site []).2.ahead = [] := by
  unfold recover
  dsimp only
  rw [ahead_skip_while]
  exact List.dropWhile_eq_nil_iff.2 fun _ _ => rfl

end State

namespace Trail

variable {state next : State} {trees : List Tree}

theorem eof_eq (h : Trail state trees next) : next.eof = state.eof := by
  induction h with
  | stay | lookAhead | conjure | stall => rfl
  | accept => simp [State.accept, State.settle]
  | delete => simp [State.delete, State.settle]
  | report state problem => exact state.eof_report problem
  | pass state => exact state.eof_advance
  | node _ _ _ _ ih => exact ih
  | append _ _ ih ih' => exact ih'.trans ih

/-- What was ahead are the tokens at the leaves left and what is still ahead. -/
theorem ahead_eq (h : Trail state trees next) (hmarked : state.Marked) :
    state.ahead = Tree.passedAll trees ++ next.ahead := by
  induction h with
  | stay | lookAhead | stall => rfl
  | accept state =>
      rw [State.accept, State.ahead_advance]
      exact hmarked.ahead_eq_leaf
  | delete state expected =>
      rw [State.ahead_delete]
      exact hmarked.ahead_eq_leaf
  | report state problem => exact (state.ahead_report problem).symm
  | conjure => rfl
  | pass state =>
      rw [State.ahead_advance]
      exact hmarked.ahead_eq_leaf
  | node _ _ _ _ ih => rw [Tree.passed_all_node]; exact ih hmarked
  | @append state middle next front back hfront _ ih ih' =>
      have hahead := ih hmarked
      have hmiddle := hmarked.of_suffix hfront.eof_eq ⟨_, hahead.symm⟩
      rw [hahead, ih' hmiddle, Tree.passed_all_append, List.append_assoc]

theorem marked (h : Trail state trees next) (hmarked : state.Marked) : next.Marked :=
  hmarked.of_suffix h.eof_eq ⟨_, (h.ahead_eq hmarked).symm⟩

/-- What is noted are faults in the order of tokens. -/
theorem syntactic (h : Trail state trees next)
    (hfaults : ∀ fault ∈ state.faults, fault.problem.phase = .syntactic) :
    ∀ fault ∈ next.faults, fault.problem.phase = .syntactic := by
  induction h with
  | stay | lookAhead | conjure | stall => exact hfaults
  | accept => simpa using hfaults
  | delete state expected =>
      simp only [State.delete, State.settle, State.faults_advance]
      exact State.syntactic_report hfaults rfl
  | report state problem hproblem => exact State.syntactic_report hfaults hproblem
  | pass => simpa using hfaults
  | node _ _ _ _ ih => exact ih hfaults
  | append _ _ ih ih' => exact ih' (ih hfaults)

end Trail

/-- Where a phrase that ends with the end mark is read to its end, no token is left. -/
theorem Phrase.ahead_of_ends (depth : Nat) (phrase : Phrase) (hends : phrase.ends = true)
    {state : State} (hmarked : state.Marked)
    (hdone : (phrase.run (Rule.parse depth) [] depth .empty state).stuck = none) :
    (phrase.run (Rule.parse depth) [] depth .empty state).state.ahead = [] := by
  induction phrase generalizing state with
  | token kind =>
      obtain rfl : kind = .eof := by simpa [ends] using hends
      exact State.ahead_of_expect_eof hmarked hdone
  | seq first second ih ih' =>
      rw [ends, Bool.and_eq_true] at hends
      rw [run] at hdone ⊢
      have hfirst := run_trail (Rule.parse_trail depth) [] depth first (.seq second .empty) state
      unfold Progress.andThen at hdone ⊢
      split at hdone
      · next hstuck => rw [hstuck] at hdone; cases hdone
      · exact ih' hends.2 (hfirst.marked hmarked) hdone
  | empty | oneOf | rule | alt | opt | star | fork => exact absurd hends Bool.false_ne_true

/-- A program is read to the last token, whatever is wrong with it. -/
theorem Rule.ahead_of_program {depth : Nat} {state : State} (hmarked : state.Marked) :
    (Rule.program.parse (depth + 1) [] state).2.ahead = [] := by
  rw [Rule.parse]
  unfold Progress.close
  split
  · next hdone => exact Phrase.ahead_of_ends depth _ ends_body_program hmarked hdone
  · exact State.ahead_of_recover _ _

/-- The lexical errors in a list of diagnostics are those that were put into it. -/
theorem filter_interleave {errors : List LexicalError} {faults : List Fault}
    (hfaults : ∀ fault ∈ faults, fault.problem.phase = .syntactic) :
    (interleave errors faults).filter (·.phase = .lexical) =
      errors.map LexicalError.diagnostic := by
  have hlexical (errors : List LexicalError) :
      (errors.map LexicalError.diagnostic).filter (·.phase = .lexical) =
        errors.map LexicalError.diagnostic := by
    rw [List.filter_eq_self]
    intro diagnostic hmem
    obtain ⟨error, -, rfl⟩ := List.mem_map.1 hmem
    rfl
  induction faults generalizing errors with
  | nil => exact hlexical errors
  | cons fault faults ih =>
      rw [List.forall_mem_cons] at hfaults
      have hfault : fault.diagnostic.phase = .syntactic := hfaults.1
      rw [interleave, List.filter_append, hlexical, List.filter_cons, hfault, if_neg (by decide),
        ih hfaults.2, ← List.map_append, List.takeWhile_append_dropWhile]

/-- The tokens of a text stand at the leaves of its tree from the first on, each once and in order,
whatever the errors: none is lost and none stands twice. A program has all of them, and all that the
lexer could not read is reported with it, in order. -/
theorem leaves_eq_tokens (source : String) :
    (∀ entry : Rule, ∃ count ≤ (Lexing.ofSource source).tokens.length,
      (Parse.ofSource entry source).tree.leaves.filterMap Tree.passed? =
        (Lexing.ofSource source).tokens.take count) ∧
    (Parse.ofSource .program source).tree.leaves.filterMap Tree.passed? =
      (Lexing.ofSource source).tokens ∧
    (Parse.ofSource .program source).diagnostics.filter (·.phase = .lexical) =
      (Lexing.ofSource source).errors.map LexicalError.diagnostic := by
  have hbefore : ∀ error ∈ (Lexing.ofSource source).errors,
      error.before ≤ (Lexing.ofSource source).tokens.length := Lexing.before_le_of_mem
  have hmarked :
      (State.start (Lexing.ofSource source).tokens (Lexing.ofSource source).eof).Marked :=
    ⟨Lexing.kind_eof_of_source source, Lexing.kind_ne_eof_of_mem⟩
  unfold Parse.ofSource
  generalize Lexing.ofSource source = lexing at *
  have htrail (entry : Rule) := entry.parse_trail (depthBound lexing.tokens.length) []
    (.start lexing.tokens lexing.eof)
  have hahead (entry : Rule) : lexing.tokens =
      (Parse.ofLexing entry lexing).tree.leaves.filterMap Tree.passed? ++
        (Parse.lastState entry lexing).ahead := by
    have hleft := (htrail entry).ahead_eq hmarked
    rwa [Tree.passedAll, Tree.leavesAll, Tree.leavesAll, List.append_nil] at hleft
  have hprogram : (Parse.lastState .program lexing).ahead = [] := by
    obtain ⟨depth, hdepth⟩ := depth_bound_succ lexing.tokens.length
    rw [Parse.lastState, hdepth]
    exact Rule.ahead_of_program hmarked
  refine ⟨fun entry => ?_, ?_, ?_⟩
  · have hlength := congrArg List.length (hahead entry)
    rw [List.length_append] at hlength
    refine ⟨_, Nat.le_of_add_right_le (Nat.le_of_eq hlength.symm), ?_⟩
    conv => rhs; rw [hahead entry]
    exact List.take_left.symm
  · have hall := hahead .program
    rw [hprogram, List.append_nil] at hall
    exact hall.symm
  · have hsyntactic : ∀ fault ∈ (Parse.lastState .program lexing).faults,
        fault.problem.phase = .syntactic :=
        (htrail .program).syntactic fun _ hmem => absurd hmem List.not_mem_nil
    rw [Parse.diagnostics_of_lexing, filter_interleave hsyntactic,
      Parse.take_while_errors hbefore hprogram]

end Little
