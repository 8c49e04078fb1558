import Little.Proofs.Lexing.Signals
import Little.Proofs.Lexing.Spans
import Little.Proofs.Parsing.Exact

/-!
# What the parser does not look at

The parser goes by the kinds of tokens. Neither their places nor how string literals are spelled
matter to it: `Rule.parse_respell` says that reading respelled tokens leads to the respelled
outcome. So two texts whose tokens are alike, and whose unreadable stretches lie between the same
tokens, have trees that are alike and the same problems in the same order (`Lexing.Alike.trees`,
`Lexing.Alike.problems`).
-/

namespace Little

namespace Tree

mutual

/-- A tree without the places in it and with its string literals spelled anew. -/
def respell (spell : String → String) : Tree → Tree
  | .leaf token => .leaf (token.respell spell)
  | .skipped token => .skipped (token.respell spell)
  | .missing kind _ _ => .missing kind Position.start.line Position.start.column
  | .node rule start stop children =>
    .node rule (start.respell spell) (stop.map (Token.respell spell)) (respellAll spell children)

/-- A row of trees without the places in them and with their string literals spelled anew. -/
def respellAll (spell : String → String) : List Tree → List Tree
  | [] => []
  | tree :: trees => tree.respell spell :: respellAll spell trees

end

@[simp] theorem respell_all_eq_map (spell : String → String) (trees : List Tree) :
    respellAll spell trees = trees.map (respell spell) := by
  induction trees with
  | nil => rfl
  | cons tree trees ih => rw [respellAll, ih, List.map_cons]

end Tree

def Fault.respell (spell : String → String) (fault : Fault) : Fault :=
  { fault with token := fault.token.respell spell }

def State.respell (spell : String → String) (state : State) : State :=
  { state with
    ahead := state.ahead.map (Token.respell spell)
    eof := state.eof.respell spell
    previous := state.previous.map (Token.respell spell)
    faults := state.faults.map (Fault.respell spell) }

def Progress.respell (spell : String → String) (progress : Progress) : Progress :=
  ⟨progress.state.respell spell, progress.made.map (Tree.respell spell), progress.stuck⟩

variable (spell : String → String)

@[simp] theorem Token.kind_respell (token : Token) : (token.respell spell).kind = token.kind := rfl

namespace State

variable (state : State)

@[simp] theorem current_respell : (state.respell spell).current = state.current.respell spell := by
  obtain ⟨ahead⟩ := state
  cases ahead <;> rfl

@[simp] theorem second_respell : (state.respell spell).second = state.second.respell spell := by
  obtain ⟨_ | ⟨token, ahead⟩⟩ := state
  · rfl
  · cases ahead <;> rfl

@[simp] theorem look_ahead_respell :
    (state.respell spell).lookAhead = state.lookAhead.respell spell := rfl

@[simp] theorem settle_respell : (state.respell spell).settle = state.settle.respell spell := rfl

@[simp] theorem advance_respell : (state.respell spell).advance = state.advance.respell spell := by
  obtain ⟨ahead⟩ := state
  cases ahead <;> rfl

@[simp] theorem accept_respell : (state.respell spell).accept = state.accept.respell spell := by
  rw [accept, settle_respell, advance_respell]
  rfl

@[simp] theorem report_respell (problem : Problem) :
    (state.respell spell).report problem = (state.report problem).respell spell := by
  unfold report
  rw [current_respell]
  show (if state.recovering then _ else _) = _
  split
  · rfl
  · simp [respell, Fault.respell]

@[simp] theorem delete_respell (expected : List Kind) :
    (state.respell spell).delete expected = (state.delete expected).respell spell := by
  rw [delete, report_respell, advance_respell, settle_respell]
  rfl

@[simp] theorem conjure_respell (kind : Kind) :
    (state.respell spell).conjure kind = (state.conjure kind).respell spell := by
  unfold conjure
  split
  · next hprevious =>
    obtain ⟨token, -, rfl⟩ := Option.map_eq_some_iff.1 hprevious
    rfl
  · rw [current_respell]
    rfl

@[simp] theorem skip_while_respell (skips : Kind → Bool) :
    (state.respell spell).skipWhile skips =
      ((state.skipWhile skips).1.map (Tree.respell spell),
        (state.skipWhile skips).2.respell spell) := by
  have hfold (passed : List Token) (state : State) :
      (passed.map (Token.respell spell)).foldl (fun state _ => state.advance)
          (state.respell spell) =
        (passed.foldl (fun state _ => state.advance) state).respell spell := by
    induction passed generalizing state with
    | nil => rfl
    | cons token passed ih =>
        rw [List.map_cons, List.foldl_cons, List.foldl_cons, advance_respell]
        exact ih state.advance
  have htake : (state.respell spell).ahead.takeWhile (fun token => skips token.kind) =
      (state.ahead.takeWhile fun token => skips token.kind).map (Token.respell spell) :=
    List.takeWhile_map
  unfold skipWhile
  dsimp only
  rw [htake, hfold, List.map_map, List.map_map]
  rfl

theorem expect_respell (kinds : List Kind) (conjured : Option Kind) (site follow : Phrase)
    (stack : List Phrase) :
    (state.respell spell).expect kinds conjured site follow stack =
      (state.expect kinds conjured site follow stack).respell spell := by
  unfold expect
  simp only [current_respell, second_respell, look_ahead_respell, accept_respell, delete_respell,
    report_respell, Token.kind_respell]
  split
  · rfl
  · split
    · rfl
    · split
      · cases conjured with
        | none => rfl
        | some kind =>
            rw [Option.toList, List.map_singleton, conjure_respell]
            rfl
      · rfl

theorem sync_respell (site : Phrase) :
    (state.respell spell).sync site = (state.sync site).respell spell := by
  unfold sync
  simp only [current_respell, second_respell, look_ahead_respell, delete_respell,
    Token.kind_respell]
  show (if state.recovering || _ || _ then _ else _) = _
  split
  · rfl
  · split <;> rfl

theorem unstall_respell (site : Site) :
    (state.respell spell).unstall site =
      ((state.unstall site).1.map (Tree.respell spell), (state.unstall site).2.respell spell) := by
  unfold unstall
  rw [current_respell, advance_respell]
  show (if state.stalledAt = some state.index ∧ site ∈ state.stalledIn then _ else _) = _
  split <;> rfl

theorem recover_respell (site : Site) (stack : List Phrase) :
    (state.respell spell).recover site stack =
      ((state.recover site stack).1.map (Tree.respell spell),
        (state.recover site stack).2.respell spell) := by
  unfold recover
  simp only [report_respell, unstall_respell, List.map_append]
  generalize (state.report (.mismatched site.left.firstKinds)).unstall site = unstalled
  have hskip := skip_while_respell spell { unstalled.2 with
    stalledAt := some unstalled.2.index, stalledIn := unstalled.2.stalledIn ++ [site] }
    fun kind => !stack.any (·.startsWith kind)
  exact congrArg (fun passed : List Tree × State =>
    (unstalled.1.map (Tree.respell spell) ++ passed.1, passed.2)) hskip

end State

namespace Progress

variable (progress : Progress)

theorem and_then_respell {next next' : State → Progress}
    (hnext : ∀ state, next' (state.respell spell) = (next state).respell spell) :
    (progress.respell spell).andThen next' = (progress.andThen next).respell spell := by
  obtain ⟨state, made, _ | left⟩ := progress
  · simp [andThen, respell, hnext]
  · rfl

theorem close_respell (rule : Rule) (start : Token) (stack : List Phrase) :
    (progress.respell spell).close rule (start.respell spell) stack =
      ((progress.close rule start stack).1.respell spell,
        (progress.close rule start stack).2.respell spell) := by
  obtain ⟨state, made, _ | left⟩ := progress
  · simp [close, respell, Tree.respell, State.respell]
  · simp only [close, respell, State.recover_respell, Tree.respell, Tree.respell_all_eq_map,
      List.map_append]
    rfl

end Progress

theorem repeat_while_respell {enters : Kind → Bool} {step : State → Progress}
    (hstep : ∀ state, step (state.respell spell) = (step state).respell spell) (rounds : Nat)
    (state : State) :
    repeatWhile enters step rounds (state.respell spell) =
      (repeatWhile enters step rounds state).respell spell := by
  induction rounds generalizing state with
  | zero => rfl
  | succ rounds ih =>
      unfold repeatWhile
      rw [State.current_respell, Token.kind_respell]
      split
      · rw [hstep]
        exact (step state).and_then_respell spell ih
      · rfl

/-- A way to read rules that does not look at what `respell` changes. -/
def Respells (call : Rule → List Phrase → State → Tree × State) : Prop :=
  ∀ rule stack state, call rule stack (state.respell spell) =
    ((call rule stack state).1.respell spell, (call rule stack state).2.respell spell)

variable {spell} in
theorem Phrase.run_respell {call : Rule → List Phrase → State → Tree × State}
    (hcall : Respells spell call) (stack : List Phrase) (rounds : Nat) (phrase follow : Phrase)
    (state : State) :
    phrase.run call stack rounds follow (state.respell spell) =
      (phrase.run call stack rounds follow state).respell spell := by
  induction phrase generalizing follow state with
  | empty => rfl
  | token kind => exact State.expect_respell _ _ _ _ _ _ _
  | oneOf kinds => exact State.expect_respell _ _ _ _ _ _ _
  | rule name =>
      simp only [run, hcall name (follow :: stack) state]
      rfl
  | seq first second ih ih' =>
      rw [run, ih]
      exact Progress.and_then_respell spell _ (ih' follow)
  | alt left right ih ih' =>
      rw [run, State.sync_respell]
      refine Progress.and_then_respell spell _ fun state => ?_
      -- the choice goes by the kind of the token in view, which stays
      rw [State.current_respell, Token.kind_respell]
      split
      · exact ih follow state
      · split
        · exact ih' follow state
        · rfl
  | opt body ih =>
      rw [run, State.sync_respell]
      refine Progress.and_then_respell spell _ fun state => ?_
      rw [State.current_respell, Token.kind_respell]
      split
      · exact ih follow state
      · rfl
  | star body ih => exact repeat_while_respell spell (ih _) rounds state
  | fork kind second left right ih ih' =>
      rw [run, State.sync_respell]
      refine Progress.and_then_respell spell _ fun state => ?_
      simp only [State.current_respell, Token.kind_respell, State.look_ahead_respell,
        State.second_respell]
      split
      · split
        · exact ih follow state.lookAhead
        · exact ih' follow state.lookAhead
      · split
        · exact ih' follow state
        · rfl

/-- Reading a rule from respelled tokens leads to the respelled outcome. -/
theorem Rule.parse_respell (depth : Nat) : Respells spell (Rule.parse depth) := by
  induction depth with
  | zero =>
      intro rule stack state
      simp [Rule.parse, Tree.respell, State.respell]
      exact state.current_respell spell
  | succ depth ih =>
      intro rule stack state
      rw [Rule.parse, Phrase.run_respell ih, State.current_respell, Progress.close_respell]
      rfl

section Problems

theorem map_take_while (errors : List LexicalError) (seen : Nat) :
    (errors.takeWhile (·.before < seen)).map (·.before) =
      (errors.map (·.before)).takeWhile (· < seen) := by
  rw [List.takeWhile_map]
  rfl

theorem map_drop_while (errors : List LexicalError) (seen : Nat) :
    (errors.dropWhile (·.before < seen)).map (·.before) =
      (errors.map (·.before)).dropWhile (· < seen) := by
  rw [List.dropWhile_map]
  rfl

/-- Which unreadable stretches are reported shows in where they lie among the tokens. -/
theorem problems_of_errors (errors : List LexicalError) :
    (errors.map LexicalError.diagnostic).map (·.problem) =
      (errors.map (·.before)).map fun _ => .unreadable := by
  rw [List.map_map, List.map_map]
  rfl

/-- What is reported shows in where errors lie among the tokens and in the faults. -/
theorem problems_interleave {errors errors' : List LexicalError} {faults faults' : List Fault}
    (herrors : errors.map (·.before) = errors'.map (·.before))
    (hfaults : faults.map (fun fault => (fault.problem, fault.seen)) =
      faults'.map fun fault => (fault.problem, fault.seen)) :
    (interleave errors faults).map (·.problem) = (interleave errors' faults').map (·.problem) := by
  induction faults generalizing errors errors' faults' with
  | nil =>
      obtain rfl := List.map_eq_nil_iff.1 hfaults.symm
      rw [interleave, interleave, problems_of_errors, problems_of_errors, herrors]
  | cons fault faults ih =>
      cases faults' with
      | nil => cases hfaults
      | cons fault' faults' =>
          rw [List.map_cons, List.map_cons, List.cons.injEq, Prod.mk.injEq] at hfaults
          obtain ⟨⟨hproblem, hseen⟩, hfaults⟩ := hfaults
          -- both rows of errors are cut at the same place, as `before` and `seen` decide it
          have hrest := @ih (errors.dropWhile (·.before < fault.seen))
            (errors'.dropWhile (·.before < fault.seen)) faults'
            (by rw [map_drop_while, map_drop_while, herrors]) hfaults
          simp only [interleave, List.map_append, List.map_cons, problems_of_errors,
            map_take_while, ← hseen, hrest, herrors]
          rw [show fault.diagnostic.problem = fault'.diagnostic.problem from hproblem]

end Problems

/-- Two lexings with tokens that are spelled alike and unreadable stretches between the same
tokens. -/
structure Lexing.Alike (spell : String → String) (lexing other : Lexing) : Prop where
  tokens : other.tokens.map (Token.respell id) = lexing.tokens.map (Token.respell spell)
  eof : other.eof.respell id = lexing.eof.respell spell
  errors : other.errors.map (·.before) = lexing.errors.map (·.before)

namespace Lexing.Alike

variable {spell} {lexing other : Lexing}

theorem parses (h : Alike spell lexing other) (entry : Rule) :
    (Parse.ofLexing entry other).tree.respell id =
        (Parse.ofLexing entry lexing).tree.respell spell ∧
      (Parse.lastState entry other).respell id =
        (Parse.lastState entry lexing).respell spell := by
  have hlength : other.tokens.length = lexing.tokens.length := by
    simpa using congrArg List.length h.tokens
  have hstart : (State.start other.tokens other.eof).respell id =
      (State.start lexing.tokens lexing.eof).respell spell := by
    simp only [State.respell, State.start, h.tokens, h.eof]
    rfl
  have hother := Rule.parse_respell id (depthBound other.tokens.length) entry []
    (.start other.tokens other.eof)
  have hlexing := Rule.parse_respell spell (depthBound lexing.tokens.length) entry []
    (.start lexing.tokens lexing.eof)
  rw [hstart, hlength, hlexing, Prod.mk.injEq] at hother
  rw [Parse.tree_of_lexing, Parse.tree_of_lexing, Parse.lastState, Parse.lastState, hlength]
  exact ⟨hother.1.symm, hother.2.symm⟩

/-- Texts with tokens that are spelled alike have trees that are spelled alike. -/
theorem trees (h : Alike spell lexing other) (entry : Rule) :
    (Parse.ofLexing entry other).tree.respell id =
      (Parse.ofLexing entry lexing).tree.respell spell := (h.parses entry).1

/-- And they have the same problems in the same order. -/
theorem problems (h : Alike spell lexing other) (entry : Rule) :
    (Parse.ofLexing entry other).diagnostics.map (·.problem) =
      (Parse.ofLexing entry lexing).diagnostics.map (·.problem) := by
  have hstates := (h.parses entry).2
  have hseen := congrArg State.seen hstates
  change (Parse.lastState entry other).seen = (Parse.lastState entry lexing).seen at hseen
  have hfaults := congrArg State.faults hstates
  change (Parse.lastState entry other).faults.map (Fault.respell id) =
    (Parse.lastState entry lexing).faults.map (Fault.respell spell) at hfaults
  rw [Parse.diagnostics_of_lexing, Parse.diagnostics_of_lexing]
  refine problems_interleave ?_ ?_
  · rw [hseen]
    rw [map_take_while, map_take_while, h.errors]
  · have hmap := congrArg (List.map fun fault : Fault => (fault.problem, fault.seen)) hfaults
    rwa [List.map_map, List.map_map] at hmap

end Lexing.Alike

/-- Texts that say the same but for the spelling of string literals are alike. -/
theorem Lexing.alike_of_signals {source other : String}
    (h : signals other.toList = (signals source.toList).map (Signal.respell spell)) :
    Alike spell (ofSource source) (ofSource other) := by
  refine ⟨?_, ?_, ?_⟩
  · rw [tokens_of_source, tokens_of_source, ← h, Signal.map_respell_id]
  · rw [of_source_eq, of_source_eq]
    rfl
  · rw [marks_of_source, marks_of_source, h, Signal.marks_respell]

@[simp] theorem Token.text_respell_id (token : Token) : (token.respell id).text = token.text :=
  ite_self token.text

namespace Tree

@[simp] theorem rule_respell (tree : Tree) : (tree.respell spell).rule? = tree.rule? := by
  cases tree <;> rfl

@[simp] theorem children_respell (tree : Tree) :
    (tree.respell spell).children = tree.children.map (respell spell) := by
  cases tree with
  | node rule start stop children => exact respell_all_eq_map spell children
  | leaf | skipped | missing => rfl

mutual

/-- Spelling nothing anew changes no text. -/
@[simp] theorem text_respell_id (tree : Tree) : (tree.respell id).text = tree.text := by
  cases tree with
  | leaf token | skipped token => exact token.text_respell_id
  | missing kind line column => rfl
  | node rule start stop children => exact text_all_respell_id children

theorem text_all_respell_id (trees : List Tree) :
    textAll (respellAll id trees) = textAll trees := by
  cases trees with
  | nil => rfl
  | cons tree trees => rw [respellAll, textAll, text_respell_id, text_all_respell_id, textAll]

end

mutual

/-- Spelling nothing anew changes nothing in how a tree is written. -/
theorem render_respell_id (tree : Tree) : (tree.respell id).render = tree.render := by
  cases tree with
  | leaf token | skipped token => exact congrArg visible token.text_respell_id
  | missing kind line column => rfl
  | node rule start stop children =>
      cases children with
      | nil => rfl
      | cons child children =>
          rw [respell, respellAll, render, render_respell_id, render_all_respell_id, render]

theorem render_all_respell_id (trees : List Tree) :
    renderAll (respellAll id trees) = renderAll trees := by
  cases trees with
  | nil => rfl
  | cons tree trees =>
      rw [respellAll, renderAll, render_respell_id, render_all_respell_id, renderAll]

end

end Tree

end Little
