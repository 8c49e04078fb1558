import Little.Proofs.Lexing.Forms
import Little.Proofs.Parsing.Trail
import Mathlib.Data.List.Induction

/-!
# Where the pieces of a text lie

`Finding.all` lists all that is found in a text, in order: tokens, what is dropped, and what cannot
be read. The tokens and the errors of a text are those of this list (`Lexing.of_source_eq`).
`findings_cover` says that the findings cover the text from its first character to its last, each
character once, that each of them is what stands at its place, and that places are counted right. It
also says what may be dropped and how far an unreadable stretch goes.
-/

namespace Little

/-- A place in a text by its line and column. -/
structure Position.IsIn (place : Position) (text : List Char) : Prop where
  offset : place.offset ≤ text.length
  /-- Each line feed before the place begins a line. -/
  line : place.line = 1 + (text.take place.offset).count '\n'
  /-- The column counts from behind the last line feed before the place. -/
  column : place.column = ((text.take place.offset).reverse.takeWhile (· ≠ '\n')).length

namespace Position

@[simp] theorem offset_start_advance (front : List Char) :
    (start.advance front).offset = front.length := by
  rw [offset_advance]
  exact Nat.zero_add _

theorem line_start_advance (front : List Char) :
    (start.advance front).line = 1 + front.count '\n' := by
  induction front using List.reverseRecOn with
  | nil => rfl
  | append_singleton front c ih =>
      rw [advance_append, advance_cons, advance_nil, next]
      split
      · next hc => rw [ih, hc, List.count_append, List.count_singleton_self, Nat.add_assoc]
      · next hc => rw [ih, List.count_append, List.count_singleton, if_neg (by simpa using hc)]; rfl

theorem column_start_advance (front : List Char) :
    (start.advance front).column = (front.reverse.takeWhile (· ≠ '\n')).length := by
  induction front using List.reverseRecOn with
  | nil => rfl
  | append_singleton front c ih =>
      rw [advance_append, advance_cons, advance_nil, next, List.reverse_append,
        List.reverse_singleton, List.singleton_append, List.takeWhile_cons]
      split
      · next hc => simp [hc]
      · next hc => simp [hc, ih]

/-- Advancing from the start leads to the place behind what was passed. -/
theorem is_in_advance (front back : List Char) :
    (start.advance front).IsIn (front ++ back) := by
  refine ⟨?_, ?_, ?_⟩
  · rw [offset_start_advance, List.length_append]
    exact Nat.le_add_right _ _
  · rw [offset_start_advance, List.take_left]
    exact line_start_advance front
  · rw [offset_start_advance, List.take_left]
    exact column_start_advance front

end Position

/-- What is found in a text. -/
inductive Finding where
  | token (token : Token)
  /-- A comment or blanks. -/
  | dropped (text : String) (position : Position)
  | unreadable (error : LexicalError)

namespace Finding

def text : Finding → String
  | .token found => found.text
  | .dropped text _ => text
  | .unreadable error => error.text

def position : Finding → Position
  | .token found => found.position
  | .dropped _ position => position
  | .unreadable error => error.position

/-- The numbers of the characters of a finding. -/
def span : Finding → List Nat
  | .token found => List.range' found.first (found.last + 1 - found.first).toNat
  | .dropped text position => List.range' position.offset text.length
  | .unreadable error => List.range' error.position.offset error.text.length

def token? : Finding → Option Token
  | .token found => some found
  | _ => none

def error? : Finding → Option LexicalError
  | .unreadable error => some error
  | _ => none

/-- What a piece at `place` is found to be, `before` tokens having been found. -/
def ofPiece (place : Position) (before : Nat) (piece : Piece) : Finding :=
  let text := String.ofList piece.text
  match piece.category with
  | some (.token kind) => .token ⟨kind, text, place⟩
  | some .comment | some .blank => .dropped text place
  | none => .unreadable ⟨text, place, before⟩

/-- What a row of pieces is found to be that begins at `place`. -/
def ofPieces (place : Position) (before : Nat) : List Piece → List Finding
  | [] => []
  | piece :: pieces =>
    let finding := ofPiece place before piece
    finding :: ofPieces (place.advance piece.text) (before + finding.token?.toList.length) pieces

/-- All that is found in a text, in order. -/
def all (source : String) : List Finding := ofPieces .start 0 (Piece.all source.toList)

variable {place : Position} {before : Nat} {piece : Piece}

@[simp] theorem text_of_piece : (ofPiece place before piece).text = String.ofList piece.text := by
  unfold ofPiece
  split <;> rfl

@[simp] theorem position_of_piece : (ofPiece place before piece).position = place := by
  unfold ofPiece
  split <;> rfl

/-- A piece takes as many characters as it has, from its place on. -/
theorem span_of_piece (h : piece.category ≠ some (.token .eof)) :
    (ofPiece place before piece).span = List.range' place.offset piece.text.length := by
  unfold ofPiece
  split
  · next kind hcategory =>
    have hlast : Token.last ⟨kind, String.ofList piece.text, place⟩ =
        (place.offset : Int) + piece.text.length - 1 := by
      unfold Token.last
      split
      · next hkind => exact absurd (hcategory.trans (congrArg (some ∘ Category.token) hkind)) h
      · rw [String.length_ofList]
        rfl
    rw [span, hlast]
    show List.range' place.offset _ = _
    congr 1
    show ((place.offset : Int) + piece.text.length - 1 + 1 - place.offset).toNat = _
    omega
  all_goals
    rw [span, String.length_ofList]

end Finding

namespace Lexing

/-- The tokens and errors among what a row of pieces is found to be, and the mark behind them. -/
theorem of_pieces_eq (place : Position) (before : Nat) (pieces : List Piece) :
    ofPieces place before pieces =
      ⟨(Finding.ofPieces place before pieces).filterMap Finding.token?,
        .atEnd (place.advance (pieces.flatMap (·.text))),
        (Finding.ofPieces place before pieces).filterMap Finding.error?⟩ := by
  induction pieces generalizing place before with
  | nil => rfl
  | cons piece pieces ih =>
      obtain ⟨category, text⟩ := piece
      rcases category with _ | ⟨kind⟩ | _ | _
      all_goals
        simp only [ofPieces, Finding.ofPieces, ih, List.flatMap_cons, Position.advance_append]
        rfl

theorem of_source_eq (source : String) :
    ofSource source =
      ⟨(Finding.all source).filterMap Finding.token?, .atEnd (Position.start.advance source.toList),
        (Finding.all source).filterMap Finding.error?⟩ := by
  rw [ofSource, of_pieces_eq, Piece.flat_map_text_all]
  rfl

end Lexing

namespace Finding

/-- What is found begins somewhere in the text, at the head of a rest that is not empty. -/
theorem exists_rest {bound before : Nat} {front rest : List Char} {finding : Finding}
    (h : finding ∈ ofPieces (Position.start.advance front) before (Piece.upTo bound rest)) :
    ∃ front' rest' before', front ++ rest = front' ++ rest' ∧ rest' ≠ [] ∧
      finding = ofPiece (Position.start.advance front') before' (Piece.first rest').1 := by
  induction bound generalizing front rest before with
  | zero => exact absurd h List.not_mem_nil
  | succ bound ih =>
      cases rest with
      | nil => exact absurd h List.not_mem_nil
      | cons c rest =>
          rcases List.mem_cons.1 h with rfl | h
          · exact ⟨front, c :: rest, before, rfl, List.cons_ne_nil c rest, rfl⟩
          · -- the text in front grows by the piece, so the induction is for any text in front
            rw [← Position.advance_append] at h
            obtain ⟨front', rest', before', htext, hne, hfinding⟩ := ih h
            refine ⟨front', rest', before', ?_, hne, hfinding⟩
            rw [← htext, List.append_assoc, Piece.first_append]

/-- Pieces lie one behind the other without a gap. -/
theorem flat_map_span {place : Position} {before : Nat} {pieces : List Piece}
    (h : ∀ piece ∈ pieces, piece.category ≠ some (.token .eof)) :
    (ofPieces place before pieces).flatMap span =
      List.range' place.offset (pieces.flatMap (·.text)).length := by
  induction pieces generalizing place before with
  | nil => rfl
  | cons piece pieces ih =>
      rw [List.forall_mem_cons] at h
      rw [ofPieces, List.flatMap_cons, span_of_piece h.1, ih h.2, Position.offset_advance,
        List.flatMap_cons, List.length_append, ← List.range'_append, Nat.one_mul]

/-- The characters of a stretch stand where it begins and behind. -/
theorem map_some_eq (front text back : List Char) :
    text.map some =
      (List.range' front.length text.length).map ((front ++ (text ++ back))[·]?) := by
  refine List.ext_getElem (by simp) fun i hi _ => ?_
  rw [List.length_map] at hi
  simp only [List.getElem_map, List.getElem_range', Nat.one_mul]
  rw [List.getElem?_append_right (Nat.le_add_right _ _), Nat.add_sub_cancel_left,
    List.getElem?_append_left hi, List.getElem?_eq_getElem hi]

/-- What is found stands where its place says. -/
structure IsIn (finding : Finding) (text : List Char) : Prop where
  position : finding.position.IsIn text
  span : finding.span = List.range' finding.position.offset finding.text.length
  nonempty : finding.span ≠ []
  slice : finding.text.toList.map some = finding.span.map (text[·]?)

theorem is_in_of_piece {front rest : List Char} {before : Nat} (h : rest ≠ []) :
    (ofPiece (Position.start.advance front) before (Piece.first rest).1).IsIn (front ++ rest) := by
  have hspan := @span_of_piece (Position.start.advance front) before _
    (Piece.category_first_ne_eof rest)
  refine ⟨?_, ?_, ?_, ?_⟩
  · rw [position_of_piece]
    exact Position.is_in_advance front rest
  · rw [position_of_piece, text_of_piece, String.length_ofList]
    exact hspan
  · rw [hspan]
    have hne := List.length_pos_iff.2 (Piece.first_text_ne_nil h)
    exact fun hnil => Nat.ne_of_gt hne (List.range'_eq_nil_iff.1 hnil)
  · rw [hspan, Position.offset_start_advance, text_of_piece, String.toList_ofList]
    have hslice := map_some_eq front (Piece.first rest).1.text (Piece.first rest).2
    rwa [Piece.first_append] at hslice

end Finding

/-- A stretch that no rule can read, with nothing at the head of `text` that a rule matches: it goes
to the first character with which no rule can go on, or to the end of the text. -/
structure LexicalError.Stops (error : LexicalError) (text : List Char) : Prop where
  unmatched : ∀ front, front <+: text.drop error.position.offset →
    ∀ rule ∈ vocabulary, ¬ rule.2.Matches front
  stop : (∃ readable c, error.text.toList = readable ++ [c] ∧
      Candidates.CanRead vocabulary readable ∧ ¬ Candidates.CanRead vocabulary (readable ++ [c])) ∨
    Candidates.CanRead vocabulary error.text.toList ∧
      error.position.offset + error.text.length = text.length

theorem Finding.stops_of_piece {front rest : List Char} {before : Nat} {error : LexicalError}
    (h : Finding.unreadable error =
      ofPiece (Position.start.advance front) before (Piece.first rest).1) :
    error.Stops (front ++ rest) := by
  unfold ofPiece Piece.first at h
  cases hlongest : Candidates.longest vocabulary rest with
  | some found =>
      rw [hlongest] at h
      dsimp only at h
      split at h
      · cases h
      · cases h
      · cases h
      · next hnone => cases hnone
  | none =>
      rw [hlongest] at h
      obtain rfl := Finding.unreadable.inj h
      have hnone := Candidates.longest_eq_none_iff.1 hlongest
      refine ⟨fun start hstart rule hrule hmatches => ?_, ?_⟩
      · rw [Position.offset_start_advance, List.drop_left] at hstart
        obtain ⟨first, hfirst⟩ := Candidates.category_is_some hrule hmatches
        rw [hnone start hstart] at hfirst
        cases hfirst
      · rcases Candidates.can_read_or_stop can_read_nil rest with
          hread | ⟨readable, c, back, rfl, hread, hstop⟩
        · refine .inr ⟨?_, ?_⟩
          · rwa [Candidates.reach_of_can_read hread, String.toList_ofList]
          · rw [Candidates.reach_of_can_read hread, Position.offset_start_advance,
              String.length_ofList, List.length_append]
        · refine .inl ⟨readable, c, ?_, hread, hstop⟩
          rw [Candidates.reach_of_stop hread hstop, String.toList_ofList]

/-- A stretch that is dropped is matched by the rule for comments or by the one for blanks. -/
theorem Finding.matches_of_dropped {place position : Position} {before : Nat} {rest : List Char}
    {text : String}
    (h : Finding.dropped text position = ofPiece place before (Piece.first rest).1) :
    Pattern.comment.Matches text.toList ∨ Pattern.blanks.Matches text.toList := by
  unfold ofPiece at h
  split at h
  · cases h
  · next hcategory =>
    obtain ⟨rfl, -⟩ := Finding.dropped.inj h
    rw [String.toList_ofList]
    have hfits := fits_of_category (Piece.category_of_first hcategory)
    exact .inl (Pattern.matches_comment_iff.2 hfits)
  · next hcategory =>
    obtain ⟨rfl, -⟩ := Finding.dropped.inj h
    rw [String.toList_ofList]
    have hfits := fits_of_category (Piece.category_of_first hcategory)
    exact .inr (Pattern.matches_plus_char_iff.2 hfits)
  · cases h

/-- The lexical errors among the diagnostics of any parse are errors of the text. -/
theorem Parse.exists_error {entry : Rule} {source : String} {diagnostic : Diagnostic}
    (h : diagnostic ∈ (Parse.ofSource entry source).diagnostics)
    (hphase : diagnostic.phase = .lexical) :
    ∃ error ∈ (Lexing.ofSource source).errors, diagnostic = error.diagnostic := by
  have hsyntactic : ∀ fault ∈ (lastState entry (Lexing.ofSource source)).faults,
      fault.problem.phase = .syntactic := (entry.parse_trail _ _ _).syntactic nofun
  have hmem : diagnostic ∈ (Parse.ofSource entry source).diagnostics.filter (·.phase = .lexical) :=
    List.mem_filter.2 ⟨h, decide_eq_true hphase⟩
  rw [Parse.ofSource, Parse.diagnostics_of_lexing, filter_interleave hsyntactic] at hmem
  obtain ⟨error, herror, rfl⟩ := List.mem_map.1 hmem
  exact ⟨error, (List.takeWhile_sublist _).subset herror, rfl⟩

/-- No character of a text is lost. What is found in it covers it from the first character to the
last, each once and in order; each finding is what stands at its place, and lines and columns are
counted right, for the mark at the end too. A token is matched by the rule of its kind, and what is
neither a token nor reported is matched by the rule for comments or the one for blanks. An
unreadable stretch goes to the first character that no rule can accept or to the end of the text,
and is reported as it stands. -/
theorem findings_cover (source : String) :
    (Lexing.ofSource source).tokens = (Finding.all source).filterMap Finding.token? ∧
    (Lexing.ofSource source).errors = (Finding.all source).filterMap Finding.error? ∧
    (Finding.all source).flatMap Finding.span = List.range source.length ∧
    (∀ finding ∈ Finding.all source, finding.IsIn source.toList) ∧
    (∀ token ∈ (Lexing.ofSource source).tokens, token.Spelled) ∧
    (∀ text position, Finding.dropped text position ∈ Finding.all source →
      Pattern.comment.Matches text.toList ∨ Pattern.blanks.Matches text.toList) ∧
    ((Lexing.ofSource source).eof.first = source.length ∧
      (Lexing.ofSource source).eof.last = (source.length : Int) - 1 ∧
      (Lexing.ofSource source).eof.position.IsIn source.toList) ∧
    (∀ error ∈ (Lexing.ofSource source).errors, error.Stops source.toList) ∧
    ∀ entry, ∀ diagnostic ∈ (Parse.ofSource entry source).diagnostics,
      diagnostic.phase = .lexical →
        ∃ error ∈ (Lexing.ofSource source).errors, diagnostic = error.diagnostic := by
  have hrest {finding : Finding} (hmem : finding ∈ Finding.all source) :=
    @Finding.exists_rest _ _ [] _ _ hmem
  refine ⟨by rw [Lexing.of_source_eq], by rw [Lexing.of_source_eq], ?_, fun finding hmem => ?_,
    Lexing.spelled_of_mem, fun text position hmem => ?_, ?_, fun error hmem => ?_,
    fun entry diagnostic => Parse.exists_error⟩
  · have hkinds : ∀ piece ∈ Piece.all source.toList, piece.category ≠ some (.token .eof) :=
      fun _ => Piece.category_ne_eof_of_mem_up_to
    rw [Finding.all, Finding.flat_map_span hkinds, Piece.flat_map_text_all, String.length_toList,
      List.range_eq_range']
    rfl
  · obtain ⟨front, rest, before, htext, hne, rfl⟩ := hrest hmem
    rw [List.nil_append] at htext
    rw [htext]
    exact Finding.is_in_of_piece hne
  · obtain ⟨_, _, _, -, -, hpiece⟩ := hrest hmem
    exact Finding.matches_of_dropped hpiece
  · have hplace := Position.is_in_advance source.toList []
    rw [List.append_nil] at hplace
    have hfirst : (Position.start.advance source.toList).offset = source.length :=
      Position.offset_start_advance source.toList
    rw [Lexing.of_source_eq]
    refine ⟨hfirst, ?_, hplace⟩
    show ((Position.start.advance source.toList).offset : Int) - 1 = _
    rw [hfirst]
  · rw [Lexing.of_source_eq] at hmem
    obtain ⟨finding, hfinding, herror⟩ := List.mem_filterMap.1 hmem
    obtain ⟨front, rest, before, htext, -, rfl⟩ := hrest hfinding
    rw [List.nil_append] at htext
    rw [htext]
    refine @Finding.stops_of_piece _ _ before _ ?_
    unfold Finding.error? at herror
    split at herror
    · next heq => rw [heq, Option.some.inj herror]
    · cases herror

end Little
