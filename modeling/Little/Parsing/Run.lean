import Little.Parsing.Recovery

/-!
# Reading by the grammar

`Phrase.run` reads one right-hand side, given how to read the rules in it; `Rule.parse` reads a
rule. A choice is made on the token in view, or on two where the phrase is a `fork`; a repetition
goes on exactly while the token in view can begin another round.

`Rule.parse` is bounded by how deep rules may be nested. A rule that is entered again inside itself
has a token between the two entries, so no more depth is needed than the number of rules for every
token and for the end of the text (`depthBound`).
-/

namespace Little

/-- Repeats a step while the token in view is one that `enters` holds for, at most so many times. -/
def repeatWhile (enters : Kind → Bool) (step : State → Progress) : Nat → State → Progress
  | 0, state => ⟨state, [], none⟩
  | rounds + 1, state =>
    if enters state.current.kind then
      (step state).andThen (repeatWhile enters step rounds)
    else ⟨state, [], none⟩

/-- Reads a phrase. `call` reads a rule, `stack` is what the rules above still expect, `rounds`
bounds the rounds of a repetition, and `follow` is what this rule expects behind the phrase. -/
def Phrase.run (call : Rule → List Phrase → State → Tree × State) (stack : List Phrase)
    (rounds : Nat) : Phrase → Phrase → State → Progress
  | .empty, _, state => ⟨state, [], none⟩
  | .token kind, follow, state =>
    state.expect [kind] (some kind) (.seq (.token kind) follow) follow stack
  | .oneOf kinds, follow, state =>
    state.expect kinds none (.seq (.oneOf kinds) follow) follow stack
  | .rule name, follow, state =>
    let (tree, state) := call name (follow :: stack) state
    ⟨state, [tree], none⟩
  | .seq first second, follow, state =>
    (first.run call stack rounds (.seq second follow) state).andThen
      (second.run call stack rounds follow)
  | .alt left right, follow, state =>
    let site := .seq (.alt left right) follow
    (state.sync site).andThen fun state =>
      if left.startsWith state.current.kind then left.run call stack rounds follow state
      else if right.startsWith state.current.kind then right.run call stack rounds follow state
      else ⟨state, [], some site⟩
  | .opt body, follow, state =>
    (state.sync (.seq (.opt body) follow)).andThen fun state =>
      if body.startsWith state.current.kind then body.run call stack rounds follow state
      else ⟨state, [], none⟩
  | .star body, follow, state =>
    repeatWhile body.startsWith (body.run call stack rounds (.seq (.star body) follow)) rounds
      state
  | .fork kind second left right, follow, state =>
    let site := .seq (.fork kind second left right) follow
    (state.sync site).andThen fun state =>
      if state.current.kind = kind then
        let state := state.lookAhead
        if state.second.kind = second then left.run call stack rounds follow state
        else right.run call stack rounds follow state
      else if right.startsWith state.current.kind then right.run call stack rounds follow state
      else ⟨state, [], some site⟩

/-- Closes a rule: what was read is its node, with what was passed in giving it up at the end. -/
def Progress.close (progress : Progress) (rule : Rule) (start : Token) (stack : List Phrase) :
    Tree × State :=
  match progress.stuck with
  | none => (.node rule start progress.state.previous progress.made, progress.state)
  | some left =>
    let (passed, state) := progress.state.recover ⟨rule, left⟩ stack
    (.node rule start state.previous (progress.made ++ passed), state)

/-- Reads a rule, with rules nested in it to the depth given. -/
def Rule.parse : Nat → Rule → List Phrase → State → Tree × State
  | 0, rule, _, state => (.node rule state.current state.previous [], state)
  | depth + 1, rule, stack, state =>
    (rule.body.run (fun name stack state => Rule.parse depth name stack state) stack depth .empty
      state).close rule state.current stack

/-- A depth of nesting that is enough for so many tokens. -/
def depthBound (tokens : Nat) : Nat := Rule.all.length * (tokens + 1)

end Little
