import Little.Proofs.Parsing.Paying
import Little.Proofs.Parsing.Reentry

/-!
# Parsing ends

The depth of nesting that a parse is given is never used up: whatever is answered where no depth is
left, and whatever greater depth or number of rounds is allowed, the outcome is the same, whatever
is wrong with the text (`Rule.parse_agrees`). So what is read is what would be read without a bound.
`Parse.ends_of_source` puts this together with what the tokens pay for and with what stands between
a node and another one of its rule: nothing is repeated and no rule is entered again without a
token, and the nodes of a tree are no more than a multiple of the tokens.
-/

namespace Little

/-- Reads a rule, with rules nested in it to the depth given. `bottom` answers where no depth is
left, and `rounds` says how often a part may be repeated for each depth that is left. -/
def Rule.parseWith (bottom : Rule → List Phrase → State → Tree × State) (rounds : Nat → Nat) :
    Nat → Rule → List Phrase → State → Tree × State
  | 0, rule, stack, state => bottom rule stack state
  | depth + 1, rule, stack, state =>
    (rule.body.run (parseWith bottom rounds depth) stack (rounds depth) .empty state).close rule
      state.current stack

/-- A parse answers with a node without parts where no depth is left. -/
theorem Rule.parse_eq_parse_with (depth : Nat) :
    Rule.parse depth = Rule.parseWith
      (fun rule _ state => (.node rule state.current state.previous [], state)) id depth := by
  induction depth with
  | zero => rfl
  | succ depth ih =>
      funext rule stack state
      rw [Rule.parse, Rule.parseWith, ← ih]
      rfl

/-- Reading to a depth that is enough leads to the same outcome as `call`, wherever a depth `other`
would be enough too. -/
def AgreeTo (depth other : Nat) (call : Rule → List Phrase → State → Tree × State) : Prop :=
  ∀ (name : Rule) (stack : List Phrase) (state : State), state.eof.kind = .eof →
    Deep depth ((Phrase.rule name).need (name.startsWith state.current.kind)) state →
    Deep other ((Phrase.rule name).need (name.startsWith state.current.kind)) state →
    name.parse depth stack state = call name stack state

/-- What comes next matters only where the first part was read to its end. -/
theorem Progress.and_then_congr {progress : Progress} {next other : State → Progress}
    (h : progress.stuck = none → next progress.state = other progress.state) :
    progress.andThen next = progress.andThen other := by
  unfold andThen
  split
  · rfl
  · next hstuck => rw [h hstuck]

section Runs

variable {depth other rounds : Nat} {rule : Rule}
  {call : Rule → List Phrase → State → Tree × State}

/-- Choices lead to the same outcome if their branches do. -/
theorem Phrase.run_choice_congr {phrase follow : Phrase} (hchoice : phrase.branches ≠ [])
    (hpredictive : phrase.isPredictive rule follow = true) {stack : List Phrase} {state : State}
    (hbranch : ∀ body ∈ phrase.branches, ∀ after, Moves state after →
      body.startsWith after.current.kind = true →
      body.run (Rule.parse depth) stack depth follow after =
        body.run call stack rounds follow after) :
    phrase.run (Rule.parse depth) stack depth follow state =
      phrase.run call stack rounds follow state := by
  have hsync := State.sync_moves (.seq phrase follow) state
  cases phrase with
  | alt left right =>
      rw [run, run]
      refine Progress.and_then_congr fun _ => ?_
      split
      · next hleft => exact hbranch left (by simp [branches]) _ hsync hleft
      · split
        · next hright => exact hbranch right (by simp [branches]) _ hsync hright
        · rfl
  | opt body =>
      rw [run, run]
      refine Progress.and_then_congr fun _ => ?_
      split
      · next hbody => exact hbranch body (by simp [branches]) _ hsync hbody
      · rfl
  | fork kind second left right =>
      simp only [isPredictive, Bool.and_eq_true, decide_eq_true_eq] at hpredictive
      obtain ⟨⟨⟨⟨⟨⟨rfl, rfl⟩, rfl⟩, rfl⟩, -⟩, -⟩, -⟩ := hpredictive
      rw [run, run]
      refine Progress.and_then_congr fun _ => ?_
      split
      · next hkind =>
        -- an identifier starts a call as well as a primary
        have hlook := hsync.tail (.lookAhead _)
        have hident : (state.sync (.seq (.fork .identifier .leftParen (.rule .call)
            (.rule .primary)) follow)).state.lookAhead.current.kind = .identifier := hkind
        dsimp only
        split
        · exact hbranch _ (by simp [branches]) _ hlook (by rw [hident]; rfl)
        · exact hbranch _ (by simp [branches]) _ hlook (by rw [hident]; rfl)
      · split
        · next hright => exact hbranch _ (by simp [branches]) _ hsync hright
        · rfl
  | empty | token | oneOf | rule | seq | star => exact absurd rfl hchoice

theorem repeat_while_of_stop {enters : Kind → Bool} {state : State}
    (h : enters state.current.kind = false) (rounds : Nat) (step : State → Progress) :
    repeatWhile enters step rounds state = ⟨state, [], none⟩ := by
  cases rounds with
  | zero => rfl
  | succ rounds => rw [repeatWhile, if_neg (ne_true_of_eq_false h)]

/-- A repetition has no more rounds than there are tokens ahead. -/
theorem repeat_while_congr {enters : Kind → Bool} {step next : State → Progress}
    {rounds more : Nat} {state : State} (hrounds : state.ahead.length ≤ rounds)
    (hmore : state.ahead.length ≤ more)
    (hstep : ∀ after, Moves state after → enters after.current.kind = true →
      step after = next after ∧ (step after).state.ahead.length < after.ahead.length)
    (hmoves : ∀ after, Moves after (step after).state) :
    repeatWhile enters step rounds state = repeatWhile enters next more state := by
  induction rounds generalizing more state with
  | zero =>
      cases henters : enters state.current.kind with
      | false => rw [repeat_while_of_stop henters, repeat_while_of_stop henters]
      | true =>
          have hlt := (hstep state .refl henters).2
          omega
  | succ rounds ih =>
      cases henters : enters state.current.kind with
      | false => rw [repeat_while_of_stop henters, repeat_while_of_stop henters]
      | true =>
          obtain ⟨heq, hlt⟩ := hstep state .refl henters
          obtain ⟨more, rfl⟩ : ∃ less, more = less + 1 := ⟨more - 1, by omega⟩
          rw [repeatWhile, repeatWhile, if_pos henters, if_pos henters, ← heq]
          refine Progress.and_then_congr fun _ => ih (by omega) (by omega) fun after hafter => ?_
          exact hstep after ((hmoves state).trans hafter)

theorem Phrase.run_agrees (hcall : AgreeTo depth other call) (hrounds : other ≤ rounds)
    (stack : List Phrase) (phrase follow : Phrase) {state : State} (heof : state.eof.kind = .eof)
    (hpredictive : phrase.isPredictive rule follow = true)
    (hends : phrase.isEndFree = true ∨ phrase.ends = true)
    (hdepth : Deep depth (phrase.need (phrase.startsWith state.current.kind)) state)
    (hother : Deep other (phrase.need (phrase.startsWith state.current.kind)) state) :
    phrase.run (Rule.parse depth) stack depth follow state =
      phrase.run call stack rounds follow state := by
  induction phrase using choice_induction generalizing follow state with
  | empty | token | oneOf => rfl
  | rule name => simp only [run, hcall name (follow :: stack) state heof hdepth hother]
  | seq first second ih ih' =>
      simp only [isPredictive, Bool.and_eq_true] at hpredictive
      have hfree := is_end_free_of_seq hends
      have hle := need_first_le first second state.current.kind
      have hfirst := ih (.seq second follow) heof hpredictive.1 (.inl hfree.1)
        (hdepth.mono (Nat.le_refl _) hle) (hother.mono (Nat.le_refl _) hle)
      have hsure : ((Phrase.seq first second).startsWith state.current.kind &&
          !first.isNullable) = true → first.startsWith state.current.kind = true := by
        intro hsure
        rw [Bool.and_eq_true, Bool.not_eq_true', startsWith] at hsure
        simpa [hsure.2] using hsure.1
      have hmoves := reading_moves depth stack first (.seq second follow) state
      have hsecond := hdepth.need_second hdepth stack hfree.1 hpredictive.1 heof hsure
      have hsecond' := hdepth.need_second hother stack hfree.1 hpredictive.1 heof hsure
      rw [run, run, ← hfirst]
      exact Progress.and_then_congr fun _ => ih' follow (hmoves.eof_eq ▸ heof) hpredictive.2
        hfree.2 (hsecond.mono (Nat.le_refl _) (second.need_le _))
        (hsecond'.mono (Nat.le_refl _) (second.need_le _))
  | star body ih =>
      simp only [isPredictive, ends, isEndFree, Bool.and_eq_true, Bool.false_eq_true,
        or_false] at hpredictive hends
      refine repeat_while_congr hdepth.length_le (hother.length_le.trans hrounds)
        (fun after hafter hbody => ?_) (reading_moves depth stack body _)
      have heof' := hafter.eof_eq ▸ heof
      have hdepth' : Deep depth (body.need true) after :=
        hdepth.mono hafter.length_ahead_le (Nat.le_refl _)
      have hother' : Deep other (body.need true) after :=
        hother.mono hafter.length_ahead_le (Nat.le_refl _)
      have hrank := hdepth'.rank_lt (State.ahead_ne_nil hends heof' hbody) body
      exact ⟨ih _ heof' hpredictive.2 (.inl hends) (by rwa [hbody]) (by rwa [hbody]),
        run_progress Rule.parse_progress stack body _ hends hpredictive.2 hrank heof' hbody⟩
  | choice phrase hchoice ih =>
      have hfree := is_end_free_of_choice hchoice hends
      refine run_choice_congr hchoice hpredictive fun body hmem after hafter hbody => ?_
      have hle := need_of_branch hmem (phrase.startsWith state.current.kind)
      exact ih body hmem follow (hafter.eof_eq ▸ heof) (is_predictive_of_branch hmem hpredictive)
        (.inl (is_end_free_of_branch hmem hfree))
        (by rw [hbody]; exact hdepth.mono hafter.length_ahead_le hle)
        (by rw [hbody]; exact hother.mono hafter.length_ahead_le hle)

/-- Reading a rule to a depth that is enough leads to the same outcome to any other depth that is
enough, whatever is answered where no depth is left. -/
theorem Rule.parse_agrees (bottom : Rule → List Phrase → State → Tree × State)
    {rounds : Nat → Nat} (hrounds : ∀ left, left ≤ rounds left) (depth other : Nat) :
    AgreeTo depth other (Rule.parseWith bottom rounds other) := by
  induction depth generalizing other with
  | zero =>
      intro name stack state _ hdepth
      exact absurd hdepth (by unfold Deep Phrase.need; omega)
  | succ depth ih =>
      intro name stack state heof hdepth hother
      -- a depth that is enough is not 0, so `bottom` is not asked
      obtain ⟨other, rfl⟩ : ∃ less, other = less + 1 :=
        ⟨other - 1, by unfold Deep Phrase.need at hother; omega⟩
      have hbody {depth : Nat}
          (h : Deep (depth + 1) ((Phrase.rule name).need (name.startsWith state.current.kind))
            state) :
          Deep depth (name.body.need (name.body.startsWith state.current.kind)) state := by
        have hle := name.need_body_le (name.startsWith state.current.kind)
        rw [Rule.starts_with_body]
        unfold Deep Phrase.need at *
        omega
      have hrun := Phrase.run_agrees (ih other) (hrounds other) stack name.body .empty heof
        name.is_predictive_body name.is_end_free_body_or_ends (hbody hdepth) (hbody hother)
      exact congrArg (·.close name state.current stack) hrun

end Runs

/-- Parsing ends, with or without faults. The bounds on the depth of nesting and on the rounds of a
repetition are never met: greater ones lead to the same outcome, and so does any answer where no
depth is left. Every round of a repetition passes a token of the text, and so do all declarations,
functions and statements inside a tree; between a node and another one of its rule inside it lies a
token; these tokens are those of the text from the first on; and there are no more nodes than a
multiple of the tokens and a few. -/
theorem Parse.ends_of_source (entry : Rule) (source : String) :
    (∀ depth, depthBound (Lexing.ofSource source).tokens.length ≤ depth →
      entry.parse depth [] (.start (Lexing.ofSource source).tokens (Lexing.ofSource source).eof) =
        ((ofSource entry source).tree, lastState entry (Lexing.ofSource source))) ∧
    (∀ (bottom : Rule → List Phrase → State → Tree × State) (rounds : Nat → Nat) (depth : Nat),
      (∀ left, left ≤ rounds left) → depthBound (Lexing.ofSource source).tokens.length ≤ depth →
      entry.parseWith bottom rounds depth []
          (.start (Lexing.ofSource source).tokens (Lexing.ofSource source).eof) =
        ((ofSource entry source).tree, lastState entry (Lexing.ofSource source))) ∧
    Paced (.rule entry) [(ofSource entry source).tree] ∧
    (∀ node ∈ (ofSource entry source).tree.occurrences [], node.above ≠ [] →
      ∀ name ∈ [Rule.stringDecl, .varDecl, .function, .statement],
        node.tree.rule? = some name → Tree.passedAll [node.tree] ≠ []) ∧
    Parted [(ofSource entry source).tree] ∧
    Tree.passedAll [(ofSource entry source).tree] <+: (Lexing.ofSource source).tokens ∧
    ((ofSource entry source).tree.occurrences []).countP (·.tree.isNode) ≤
      13 * (Lexing.ofSource source).tokens.length + 11 := by
  have hwith (bottom : Rule → List Phrase → State → Tree × State) (rounds : Nat → Nat)
      (depth : Nat) (hrounds : ∀ left, left ≤ rounds left)
      (hdepth : depthBound (Lexing.ofSource source).tokens.length ≤ depth) :
      entry.parseWith bottom rounds depth []
          (.start (Lexing.ofSource source).tokens (Lexing.ofSource source).eof) =
        ((ofSource entry source).tree, lastState entry (Lexing.ofSource source)) := by
    have hdeep (certain : Bool) := deep_start (entry.need_lt certain)
      (Lexing.ofSource source).tokens (Lexing.ofSource source).eof
    exact (Rule.parse_agrees bottom hrounds _ depth entry [] _ (Lexing.kind_eof_of_source source)
      (hdeep _) (Nat.le_trans (hdeep _) hdepth)).symm
  refine ⟨fun depth hdepth => ?_, hwith, paced_of_source entry source, ?_,
    parted_of_source entry source, passed_prefix_of_source entry source, nodes_le entry source⟩
  · rw [Rule.parse_eq_parse_with]
    exact hwith _ id depth Nat.le_refl hdepth
  · intro node hmem habove name hname hrule
    exact passed_of_node entry source hmem habove hrule hname

/-- Calls that are never closed: more depth of nesting leads to the same outcome, and so does
another answer where no depth is left. -/
theorem Parse.ends_of_open_calls :
    Rule.expr.parse 1000 [] (.start (Lexing.ofSource "f(f(").tokens (Lexing.ofSource "f(f(").eof) =
        ((ofSource .expr "f(f(").tree, lastState .expr (Lexing.ofSource "f(f(")) ∧
      Rule.expr.parseWith (fun _ _ state => (.leaf state.eof, state)) (· + 1) 1000 []
          (.start (Lexing.ofSource "f(f(").tokens (Lexing.ofSource "f(f(").eof) =
        ((ofSource .expr "f(f(").tree, lastState .expr (Lexing.ofSource "f(f(")) :=
  ⟨(ends_of_source .expr "f(f(").1 1000 (by decide +kernel),
    (ends_of_source .expr "f(f(").2.1 _ _ 1000 Nat.le_succ (by decide +kernel)⟩

end Little
