import Little.Lexicon.Munch
import Little.Token

/-!
# From characters to tokens

`Piece.all` cuts a text into pieces: what lexical rules read, and the stretches no rule can read.
Put together again the pieces are the text (`flat_map_text_all`). `Lexing.ofSource` gives every piece
its place, keeps the tokens, drops comments and blanks, and notes each unreadable stretch with the
number of the token it stands before.
-/

namespace Little

/-- A stretch of a source text that is read at one go. -/
structure Piece where
  /-- The lexical rule that read it, if one could. -/
  category : Option Category
  text : List Char
deriving DecidableEq, Repr

namespace Piece

/-- The piece at the head of a text, and the rest. -/
def first (text : List Char) : Piece × List Char :=
  match Candidates.longest vocabulary text with
  | some (category, front, rest) => (⟨some category, front⟩, rest)
  | none =>
    let (front, rest) := Candidates.reach vocabulary text
    (⟨none, front⟩, rest)

theorem first_append (text : List Char) : (first text).1.text ++ (first text).2 = text := by
  unfold first
  split
  · next h => exact (Candidates.longest_append h).symm
  · exact Candidates.reach_append vocabulary text

/-- At most `bound` pieces from the head of a text. -/
def upTo : Nat → List Char → List Piece
  | 0, _ => []
  | _ + 1, [] => []
  | bound + 1, text => (first text).1 :: upTo bound (first text).2

/-- The pieces of a text. There are no more of them than characters. -/
def all (text : List Char) : List Piece := upTo text.length text

theorem first_text_ne_nil {text : List Char} (h : text ≠ []) : (first text).1.text ≠ [] := by
  obtain ⟨c, text, rfl⟩ := List.exists_cons_of_ne_nil h
  have start : Candidates.accepted vocabulary = none := by decide +kernel
  unfold first
  split
  · next category front rest found =>
    simp only [Candidates.longest, start, Option.map_none] at found
    split at found
    · cases found
      exact List.cons_ne_nil _ _
    · cases found
  · simp only [Candidates.reach]
    split <;> exact List.cons_ne_nil _ _

/-- The pieces of a text, put together again, are the text. -/
theorem flat_map_text_all (text : List Char) : (all text).flatMap (·.text) = text := by
  suffices ∀ bound, ∀ text : List Char, text.length ≤ bound →
      (upTo bound text).flatMap (·.text) = text from this _ _ (Nat.le_refl _)
  intro bound
  induction bound with
  | zero => intro text h; simp [List.eq_nil_of_length_eq_zero (Nat.le_zero.1 h), upTo]
  | succ bound ih =>
    intro text h
    cases text with
    | nil => rfl
    | cons c text =>
      have same := first_append (c :: text)
      have progress := List.length_pos_iff.2 (first_text_ne_nil (List.cons_ne_nil c text))
      have lengths := congrArg List.length same
      rw [List.length_append] at lengths
      simp only [upTo, List.flatMap_cons, ih _ (show (first (c :: text)).2.length ≤ bound by omega)]
      exact same

end Piece

/-- A stretch of source that no lexical rule can read. -/
structure LexicalError where
  text : String
  position : Position
  /-- How many tokens lie before it. -/
  before : Nat
deriving DecidableEq, Repr

/-- What is found in a source text. -/
structure Lexing where
  /-- The tokens, in order. -/
  tokens : List Token
  /-- The mark behind the last character. -/
  eof : Token
  /-- The stretches that could not be read, in order. -/
  errors : List LexicalError
deriving DecidableEq, Repr

namespace Lexing

/-- What is found in a row of pieces that begins at `place`, `before` tokens having been found. -/
def ofPieces (place : Position) (before : Nat) : List Piece → Lexing
  | [] => ⟨[], .atEnd place, []⟩
  | piece :: pieces =>
    let behind := place.advance piece.text
    match piece.category with
    | some (.token kind) =>
      let rest := ofPieces behind (before + 1) pieces
      { rest with tokens := ⟨kind, String.ofList piece.text, place⟩ :: rest.tokens }
    | some .comment | some .blank => ofPieces behind before pieces
    | none =>
      let rest := ofPieces behind before pieces
      { rest with errors := ⟨String.ofList piece.text, place, before⟩ :: rest.errors }

/-- What is found in a source text. -/
def ofSource (source : String) : Lexing :=
  ofPieces .start 0 (Piece.all source.toList)

end Lexing

end Little
