import Little.Diagnostic
import Little.Grammar.Starts
import Little.Tree

/-!
# The parser's state

The parser moves over the tokens from left to right. The mark at the end of the text is always in
view behind the last token and is never passed. The state also keeps how far the parser has ever
looked (`seen`), which tells later which lexical errors had been met at a given moment, and what it
needs to come out of an error: whether it is still recovering from one, and where it has recovered
without having read a token since (`stalledAt`, `stalledIn`).
-/

namespace Little

/-- A place in the grammar: a rule and what is left of its right-hand side. -/
structure Site where
  rule : Rule
  left : Phrase
deriving DecidableEq, Repr

/-- Something wrong with the order of the tokens. -/
structure Fault where
  problem : Problem
  /-- The token in view. -/
  token : Token
  /-- How many tokens lie before it. -/
  index : Nat
  /-- How many tokens had been looked at, the mark at the end included. -/
  seen : Nat
deriving DecidableEq, Repr

/-- The state of a parser. -/
structure State where
  /-- The tokens not yet passed. -/
  ahead : List Token
  /-- The mark at the end of the text. -/
  eof : Token
  /-- How many tokens have been passed. -/
  index : Nat
  /-- How many tokens have been looked at, the mark at the end included. -/
  seen : Nat
  /-- The last token passed. -/
  previous : Option Token
  /-- What has been found wrong, in order. -/
  faults : List Fault
  /-- Whether a fault has been noted and no token has fitted since. -/
  recovering : Bool
  /-- The number of tokens passed when recovery last began, if no token has fitted since. -/
  stalledAt : Option Nat
  /-- The places where recovery began since a token last fitted. -/
  stalledIn : List Site
deriving Repr

namespace State

/-- The state before the first token, which is in view. -/
def start (tokens : List Token) (eof : Token) : State where
  ahead := tokens
  eof := eof
  index := 0
  seen := 1
  previous := none
  faults := []
  recovering := false
  stalledAt := none
  stalledIn := []

/-- The token in view. -/
def current (state : State) : Token := state.ahead.headD state.eof

/-- The token behind the one in view. -/
def second (state : State) : Token := state.ahead.tail.headD state.eof

/-- Looks at the token behind the one in view. -/
def lookAhead (state : State) : State :=
  { state with seen := max state.seen (state.index + 2) }

/-- Passes the token in view, which brings the next one into view. The mark at the end stays. -/
def advance (state : State) : State :=
  match state.ahead with
  | [] => state
  | token :: ahead =>
    { state with
      ahead := ahead
      index := state.index + 1
      seen := max state.seen (state.index + 2)
      previous := some token }

/-- A token fits: whatever was wrong is over. -/
def settle (state : State) : State :=
  { state with recovering := false, stalledAt := none, stalledIn := [] }

/-- The token in view fits and is passed. -/
def accept (state : State) : State := state.settle.advance

/-- Notes that something is wrong with the token in view, unless an earlier fault is not over. -/
def report (state : State) (problem : Problem) : State :=
  if state.recovering then state
  else
    { state with
      recovering := true
      faults := state.faults ++ [⟨problem, state.current, state.index, state.seen⟩] }

/-- Passes the token in view as one too many before the kinds expected. -/
def delete (state : State) (expected : List Kind) : State :=
  (state.report (.extraneous expected)).advance.settle

/-- A leaf for a token of the kind that is not there. It stands where the token in view stands, or
where the last token stood if the text has ended. -/
def conjure (state : State) (kind : Kind) : Tree :=
  let token :=
    match state.current.kind, state.previous with
    | .eof, some previous => previous
    | _, _ => state.current
  .missing kind token.line token.column

/-- Passes tokens while their kinds are as given. -/
def skipWhile (state : State) (skips : Kind → Bool) : List Tree × State :=
  let passed := state.ahead.takeWhile fun token => skips token.kind
  (passed.map .skipped, passed.foldl (fun state _ => state.advance) state)

end State

end Little
