import Mathlib.Data.Prod.Lex
import Little.Proofs.Lexing.Tokens

/-!
# The order of places in a text

Places are compared by line, then by column. Whoever reads on comes to a later place
(`Position.place_lt_advance`), so all that is found in a text stands in the order of its places.
`Lexing.InOrder` says so of tokens and of unreadable stretches, and that the number which such a
stretch keeps tells which tokens it lies behind.
-/

namespace Little

namespace Position

/-- Line and column, compared in this order. -/
def place (position : Position) : Nat ×ₗ Nat := toLex (position.line, position.column)

theorem place_lt_next (position : Position) (c : Char) :
    position.place < (position.next c).place := by
  unfold next place
  split
  · exact Prod.Lex.toLex_lt_toLex.2 (.inl (Nat.lt_succ_self _))
  · exact Prod.Lex.toLex_lt_toLex.2 (.inr ⟨rfl, Nat.lt_succ_self _⟩)

theorem place_le_advance (position : Position) (text : List Char) :
    position.place ≤ (position.advance text).place := by
  induction text generalizing position with
  | nil => exact le_rfl
  | cons c text ih => exact (position.place_lt_next c).le.trans (ih (position.next c))

/-- Behind a character the place is a later one. -/
theorem place_lt_advance (position : Position) {text : List Char} (h : text ≠ []) :
    position.place < (position.advance text).place := by
  obtain ⟨c, text, rfl⟩ := List.exists_cons_of_ne_nil h
  exact (position.place_lt_next c).trans_le (place_le_advance (position.next c) text)

end Position

namespace Piece

theorem text_ne_nil_of_mem_up_to {bound : Nat} {text : List Char} {piece : Piece}
    (h : piece ∈ upTo bound text) : piece.text ≠ [] := by
  induction bound generalizing text with
  | zero => exact absurd h List.not_mem_nil
  | succ bound ih =>
      cases text with
      | nil => exact absurd h List.not_mem_nil
      | cons c text =>
          rcases List.mem_cons.1 h with rfl | h
          · exact first_text_ne_nil (List.cons_ne_nil c text)
          · exact ih h

end Piece

namespace Lexing

/-- The tokens of a text and the mark behind them. -/
def marked (lexing : Lexing) : List Token := lexing.tokens ++ [lexing.eof]

/-- What was found from a place on, `before` tokens having been found, stands in order. -/
structure InOrder (place : Nat ×ₗ Nat) (before : Nat) (lexing : Lexing) : Prop where
  tokens : lexing.marked.Pairwise (·.position.place < ·.position.place)
  errors : lexing.errors.Pairwise fun error later =>
    error.position.place < later.position.place ∧ error.before ≤ later.before
  /-- An unreadable stretch lies behind as many tokens as it keeps. -/
  behind : ∀ error ∈ lexing.errors, ∀ index token, lexing.marked[index]? = some token →
    before + index < error.before → token.position.place < error.position.place
  /-- It lies before all others. -/
  ahead : ∀ error ∈ lexing.errors, ∀ index token, lexing.marked[index]? = some token →
    error.before ≤ before + index → error.position.place < token.position.place
  token_le : ∀ token ∈ lexing.marked, place ≤ token.position.place
  error_le : ∀ error ∈ lexing.errors, place ≤ error.position.place ∧ before ≤ error.before

namespace InOrder

variable {place next : Nat ×ₗ Nat} {before : Nat} {lexing : Lexing}

theorem mono (h : InOrder next before lexing) (hle : place ≤ next) :
    InOrder place before lexing where
  tokens := h.tokens
  errors := h.errors
  behind := h.behind
  ahead := h.ahead
  token_le := fun token hmem => hle.trans (h.token_le token hmem)
  error_le := fun error hmem => ⟨hle.trans (h.error_le error hmem).1, (h.error_le error hmem).2⟩

/-- A token that stands before all that was found. -/
theorem cons_token (h : InOrder next (before + 1) lexing) (token : Token)
    (hlt : token.position.place < next) :
    InOrder token.position.place before { lexing with tokens := token :: lexing.tokens } where
  tokens := List.pairwise_cons.2
    ⟨fun later hmem => hlt.trans_le (h.token_le later hmem), h.tokens⟩
  errors := h.errors
  behind := by
    intro error hmem index other hother hindex
    cases index with
    | zero =>
        obtain rfl : token = other := Option.some.inj hother
        exact hlt.trans_le (h.error_le error hmem).1
    | succ index => exact h.behind error hmem index other hother (by omega)
  ahead := by
    intro error hmem index other hother hindex
    cases index with
    | zero =>
        have hbefore := (h.error_le error hmem).2
        omega
    | succ index => exact h.ahead error hmem index other hother (by omega)
  token_le := List.forall_mem_cons.2
    ⟨le_rfl, fun later hmem => (hlt.trans_le (h.token_le later hmem)).le⟩
  error_le := fun error hmem =>
    ⟨(hlt.trans_le (h.error_le error hmem).1).le, Nat.le_of_succ_le (h.error_le error hmem).2⟩

/-- An unreadable stretch that stands before all that was found. -/
theorem cons_error (h : InOrder next before lexing) (error : LexicalError)
    (hlt : error.position.place < next) (hbefore : error.before = before) :
    InOrder error.position.place before { lexing with errors := error :: lexing.errors } where
  tokens := h.tokens
  errors := List.pairwise_cons.2 ⟨fun later hmem => ⟨hlt.trans_le (h.error_le later hmem).1,
    hbefore ▸ (h.error_le later hmem).2⟩, h.errors⟩
  behind := List.forall_mem_cons.2 ⟨fun _ _ _ hindex => by omega, h.behind⟩
  ahead := List.forall_mem_cons.2 ⟨fun _ token htoken _ =>
    hlt.trans_le (h.token_le token (List.mem_of_getElem? htoken)), h.ahead⟩
  token_le := fun token hmem => (hlt.trans_le (h.token_le token hmem)).le
  error_le := List.forall_mem_cons.2 ⟨⟨le_rfl, Nat.le_of_eq hbefore.symm⟩, fun later hmem =>
    ⟨(hlt.trans_le (h.error_le later hmem).1).le, (h.error_le later hmem).2⟩⟩

end InOrder

/-- What is found in pieces stands in the order of the pieces. -/
theorem in_order_of_pieces {pieces : List Piece} (h : ∀ piece ∈ pieces, piece.text ≠ [])
    (place : Position) (before : Nat) :
    (ofPieces place before pieces).InOrder place.place before := by
  induction pieces generalizing place before with
  | nil =>
      exact ⟨List.pairwise_singleton _ _, .nil, nofun, nofun,
        List.forall_mem_singleton.2 le_rfl, nofun⟩
  | cons piece pieces ih =>
      rw [List.forall_mem_cons] at h
      have hlt := place.place_lt_advance h.1
      have hrest (before : Nat) := ih h.2 (place.advance piece.text) before
      unfold ofPieces
      dsimp only
      split
      · exact (hrest (before + 1)).cons_token ⟨_, _, place⟩ hlt
      · exact (hrest before).mono hlt.le
      · exact (hrest before).mono hlt.le
      · exact (hrest before).cons_error ⟨_, place, before⟩ hlt rfl

/-- What is found in a text stands in order. -/
theorem in_order_of_source (source : String) :
    (ofSource source).InOrder Position.start.place 0 :=
  in_order_of_pieces (fun _ => Piece.text_ne_nil_of_mem_up_to) _ _

end Lexing

end Little
