import Little.Parsing.State

/-!
# Coming out of errors

Where a token does not fit, the parser tries in turn: to drop the one token in view, if the next
one fits; to go on as if the token expected had been there, if the one in view may follow it; else
to give up the rule it is in. A rule given up passes tokens until one that some rule above can go
on with.

What the rules above still expect is a stack of phrases, the nearest first.
-/

namespace Little

/-- What reading a part of a right-hand side leads to. -/
structure Progress where
  state : State
  /-- The trees read, in order. -/
  made : List Tree
  /-- Where the rule had to be given up: what was still expected. -/
  stuck : Option Phrase
deriving Repr

namespace Progress

/-- Goes on from where the first part ended, unless it had to be given up. -/
def andThen (progress : Progress) (next : State → Progress) : Progress :=
  match progress.stuck with
  | some _ => progress
  | none =>
    let rest := next progress.state
    { rest with made := progress.made ++ rest.made }

end Progress

/-- Whether a token of the kind may come next where the phrases of a stack are still expected.
Behind all of them the text ends. -/
def admits (kind : Kind) : List Phrase → Bool
  | [] => kind = .eof
  | phrase :: stack => phrase.startsWith kind || (phrase.isNullable && admits kind stack)

namespace State

/-- Reads one token of the kinds given. `site` is what the rule still expects from here on and
`follow` what it expects behind the token. If the token is taken to have been there, a leaf stands
for it where `conjured` names its kind. -/
def expect (kinds : List Kind) (conjured : Option Kind) (site follow : Phrase)
    (stack : List Phrase) (state : State) : Progress :=
  if kinds.contains state.current.kind then
    ⟨state.accept, [.leaf state.current], none⟩
  else
    let state := state.lookAhead
    if kinds.contains state.second.kind then
      ⟨(state.delete kinds).accept, [.skipped state.current, .leaf state.second], none⟩
    else if admits state.current.kind (follow :: stack) then
      ⟨state.report (.missing kinds), conjured.toList.map state.conjure, none⟩
    else
      ⟨state, [], some site⟩

/-- Checks, before a choice, that the token in view is one of those expected; a single token too
many is dropped here. While recovering nothing is checked. -/
def sync (site : Phrase) (state : State) : Progress :=
  if state.recovering || site.isNullable || site.startsWith state.current.kind then
    ⟨state, [], none⟩
  else
    let state := state.lookAhead
    if site.startsWith state.second.kind then
      ⟨state.delete site.firstKinds, [.skipped state.current], none⟩
    else
      ⟨state, [], some site⟩

/-- Passes one token if recovery has begun in this very place before and no token has been passed
since, so that recovery cannot go round in circles. At the end of the text the mark is noted as
passed, though it stays. -/
def unstall (site : Site) (state : State) : List Tree × State :=
  if state.stalledAt = some state.index ∧ site ∈ state.stalledIn then
    ([.skipped state.current], state.advance)
  else ([], state)

/-- Gives up a rule: passes tokens until one that a rule above can go on with. -/
def recover (site : Site) (stack : List Phrase) (state : State) : List Tree × State :=
  let (forced, state) := (state.report (.mismatched site.left.firstKinds)).unstall site
  let state :=
    { state with stalledAt := some state.index, stalledIn := state.stalledIn ++ [site] }
  let (passed, state) := state.skipWhile fun kind => !stack.any (·.startsWith kind)
  (forced ++ passed, state)

end State

end Little
