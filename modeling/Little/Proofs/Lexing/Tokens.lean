import Little.Proofs.Lexing.Longest

/-!
# What the tokens of a text are

Each token is a piece that a lexical rule has read (`Lexing.category_of_mem`), so none but the mark
behind the last character is the end of the text (`Lexing.kind_ne_eof_of_mem`). A lexical error lies
before some token or before the mark (`Lexing.before_le_of_mem`), so whoever has looked at the mark
has met all of them.
-/

namespace Little

/-- No lexical rule produces the mark at the end. -/
theorem eof_not_mem_vocabulary : Category.token .eof ∉ vocabulary.map (·.1) := by
  decide +kernel

namespace Piece

variable {bound : Nat} {text : List Char} {piece : Piece} {category : Category}

/-- Every piece is the first one of what is left of the text. -/
theorem exists_first_of_mem_up_to (h : piece ∈ upTo bound text) :
    ∃ rest, piece = (first rest).1 := by
  induction bound generalizing text with
  | zero => exact absurd h List.not_mem_nil
  | succ bound ih =>
      cases text with
      | nil => exact absurd h List.not_mem_nil
      | cons c text =>
          rcases List.mem_cons.1 h with rfl | h
          · exact ⟨c :: text, rfl⟩
          · exact ih h

theorem category_of_first (h : (first text).1.category = some category) :
    Candidates.category? vocabulary (first text).1.text = some category := by
  unfold first at h ⊢
  split at h
  · next category' front rest hlongest =>
    cases h
    exact (Candidates.longest_eq_some_iff.1 hlongest).2.matched
  · cases h

theorem category_first_ne_eof (text : List Char) :
    (first text).1.category ≠ some (.token .eof) := by
  intro heof
  obtain ⟨pattern, hmem, -⟩ := Candidates.exists_of_category (category_of_first heof)
  exact eof_not_mem_vocabulary (List.mem_map.2 ⟨_, hmem, rfl⟩)

/-- Every piece that is read is what its rule says. -/
theorem category_of_mem_up_to (h : piece ∈ upTo bound text)
    (hcategory : piece.category = some category) :
    Candidates.category? vocabulary piece.text = some category := by
  obtain ⟨rest, rfl⟩ := exists_first_of_mem_up_to h
  exact category_of_first hcategory

theorem category_ne_eof_of_mem_up_to (h : piece ∈ upTo bound text) :
    piece.category ≠ some (.token .eof) := by
  obtain ⟨rest, rfl⟩ := exists_first_of_mem_up_to h
  exact category_first_ne_eof rest

end Piece

namespace Lexing

@[simp] theorem kind_eof_of_pieces (place : Position) (before : Nat) (pieces : List Piece) :
    (ofPieces place before pieces).eof.kind = .eof := by
  induction pieces generalizing place before with
  | nil => rfl
  | cons piece pieces ih =>
      unfold ofPieces
      split <;> exact ih _ _

/-- A token is made of a piece. -/
theorem exists_piece_of_mem {place : Position} {before : Nat} {pieces : List Piece} {token : Token}
    (h : token ∈ (ofPieces place before pieces).tokens) :
    ∃ piece ∈ pieces, piece.category = some (.token token.kind) ∧
      token.text.toList = piece.text := by
  induction pieces generalizing place before with
  | nil => exact absurd h List.not_mem_nil
  | cons piece pieces ih =>
      have hrest {place : Position} {before : Nat}
          (h : token ∈ (ofPieces place before pieces).tokens) :
          ∃ other ∈ piece :: pieces, other.category = some (.token token.kind) ∧
            token.text.toList = other.text := by
        obtain ⟨other, hmem, hother⟩ := ih h
        exact ⟨other, List.mem_cons_of_mem piece hmem, hother⟩
      unfold ofPieces at h
      split at h
      · next kind hcategory =>
        rcases List.mem_cons.1 h with rfl | h
        · exact ⟨piece, List.mem_cons_self, hcategory, String.toList_ofList⟩
        · exact hrest h
      · exact hrest h
      · exact hrest h
      · exact hrest h

theorem before_le_of_pieces {place : Position} {before : Nat} {pieces : List Piece} :
    ∀ error ∈ (ofPieces place before pieces).errors,
      error.before ≤ before + (ofPieces place before pieces).tokens.length := by
  induction pieces generalizing place before with
  | nil => exact nofun
  | cons piece pieces ih =>
      unfold ofPieces
      split
      · -- one token more stands before all errors that follow
        intro error hmem
        have hle := ih error hmem
        simp only [List.length_cons]
        omega
      · exact ih
      · exact ih
      · rw [List.forall_mem_cons]
        exact ⟨Nat.le_add_right _ _, ih⟩

/-- The mark behind the last character is one. -/
@[simp] theorem kind_eof_of_source (source : String) : (ofSource source).eof.kind = .eof :=
  kind_eof_of_pieces _ _ _

/-- A token of a text, taken by itself, is read as what it is. -/
theorem category_of_mem {source : String} : ∀ token ∈ (ofSource source).tokens,
    Candidates.category? vocabulary token.text.toList = some (.token token.kind) := by
  intro token hmem
  obtain ⟨piece, hpiece, hcategory, htext⟩ := exists_piece_of_mem hmem
  rw [htext]
  exact Piece.category_of_mem_up_to hpiece hcategory

/-- No token of a text is the mark at the end. -/
theorem kind_ne_eof_of_mem {source : String} :
    ∀ token ∈ (ofSource source).tokens, token.kind ≠ .eof := by
  intro token hmem heof
  obtain ⟨piece, hpiece, hcategory, -⟩ := exists_piece_of_mem hmem
  rw [heof] at hcategory
  exact Piece.category_ne_eof_of_mem_up_to hpiece hcategory

/-- A lexical error lies before a token or before the mark at the end. -/
theorem before_le_of_mem {source : String} :
    ∀ error ∈ (ofSource source).errors, error.before ≤ (ofSource source).tokens.length := by
  intro error hmem
  have hle := before_le_of_pieces error hmem
  rwa [Nat.zero_add] at hle

end Lexing

end Little
