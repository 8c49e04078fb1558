import Little.Proofs.Lexing.Signals
import Little.Proofs.Lexing.Spans

/-!
# Longest matches, one after the other

`Lexes` says what a text consists of in terms of what lexical rules match, and of nothing else. What
is cut off at the head is the longest part that some rule matches, and belongs to the first rule
that does (`Munch`). Where no rule matches anything, it is what some rule could still go on from,
with one character more (`Unreadable`). One of the two can be cut off any text that is not empty
(`exists_munch_or_unreadable`), and only in one way, so `Lexes` holds of exactly one outcome, and
that is what is found (`Lexing.lexes_iff_of_source`).
-/

namespace Little

/-- Some lexical rule matches the whole of a text. -/
def IsMatched (text : List Char) : Prop := ∃ rule ∈ vocabulary, rule.2.Matches text

/-- Some lexical rule matches the text with something behind it. -/
def IsExtensible (text : List Char) : Prop := ∃ more, IsMatched (text ++ more)

/-- The first rule that matches a text, in the order of the lexical rules, is one of that category. -/
def Category.IsFirst (category : Category) (text : List Char) : Prop :=
  ∃ earlier pattern later, vocabulary = earlier ++ (category, pattern) :: later ∧
    pattern.Matches text ∧ ∀ rule ∈ earlier, ¬ rule.2.Matches text

/-- Of `front ++ rest`, with something in `front`, no more than `front` is matched. -/
structure Munch (category : Category) (front rest : List Char) : Prop where
  ne_nil : front ≠ []
  first : category.IsFirst front
  longest : ∀ longer, longer <+: front ++ rest → front.length < longer.length → ¬ IsMatched longer

/-- Nothing at the head of `front ++ rest` is matched, and `front` is the longest part at the head
that can be extended to a match, with the next character if there is one. -/
structure Unreadable (front rest : List Char) : Prop where
  ne_nil : front ++ rest ≠ []
  unmatched : ∀ start, start <+: front ++ rest → start ≠ [] → ¬ IsMatched start
  span : ∃ reach, reach <+: front ++ rest ∧ IsExtensible reach ∧
    (∀ longer, longer <+: front ++ rest → IsExtensible longer → longer.length ≤ reach.length) ∧
    front = (front ++ rest).take (reach.length + 1)

/-- `Lexes place before text found` says what is found in a text that begins at `place`, with
`before` tokens before it. -/
inductive Lexes : Position → Nat → List Char → Lexing → Prop where
  /-- The end is found where nothing is left. -/
  | done {place before} : Lexes place before [] ⟨[], .atEnd place, []⟩
  | token {place before kind front rest found} :
      Munch (.token kind) front rest → Lexes (place.advance front) (before + 1) rest found →
      Lexes place before (front ++ rest)
        { found with tokens := ⟨kind, String.ofList front, place⟩ :: found.tokens }
  | dropped {place before category front rest found} :
      category = .comment ∨ category = .blank → Munch category front rest →
      Lexes (place.advance front) before rest found → Lexes place before (front ++ rest) found
  | unreadable {place before front rest found} :
      Unreadable front rest → Lexes (place.advance front) before rest found →
      Lexes place before (front ++ rest)
        { found with errors := ⟨String.ofList front, place, before⟩ :: found.errors }

section Cutting

variable {category : Category} {text front rest : List Char}

theorem not_is_matched_iff :
    ¬ IsMatched text ↔ Candidates.category? vocabulary text = none := by
  rw [Option.eq_none_iff_forall_ne_some, IsMatched]
  constructor
  · rintro h category hcategory
    obtain ⟨pattern, hmem, hmatches⟩ := Candidates.exists_of_category hcategory
    exact h ⟨(category, pattern), hmem, hmatches⟩
  · rintro h ⟨rule, hmem, hmatches⟩
    obtain ⟨first, hfirst⟩ := Candidates.category_is_some hmem hmatches
    exact h first hfirst

/-- No rule matches the empty text. -/
theorem not_is_matched_nil : ¬ IsMatched [] :=
  not_is_matched_iff.2 (Option.eq_none_iff_forall_ne_some.2 fun _ h =>
    (fits_of_category h).ne_nil rfl)

theorem is_extensible_iff : IsExtensible text ↔ Candidates.CanRead vocabulary text :=
  ⟨fun ⟨more, rule, hmem, hmatches⟩ => ⟨rule, hmem, more, hmatches⟩,
    fun ⟨rule, hmem, more, hmatches⟩ => ⟨more, rule, hmem, hmatches⟩⟩

theorem Category.is_first_iff :
    category.IsFirst text ↔ Candidates.category? vocabulary text = some category := by
  have haccepts (rule : Category × Pattern) :
      (!rule.2.accepts text) = true ↔ ¬ rule.2.Matches text := by
    rw [Bool.not_eq_true', ← Pattern.accepts_iff, Bool.not_eq_true]
  rw [Candidates.category?, Option.map_eq_some_iff]
  constructor
  · rintro ⟨earlier, pattern, later, heq, hmatches, hnone⟩
    refine ⟨(category, pattern), List.find?_eq_some_iff_append.2 ⟨Pattern.accepts_iff.2 hmatches,
      earlier, later, heq, fun rule hrule => (haccepts rule).2 (hnone rule hrule)⟩, rfl⟩
  · rintro ⟨⟨_, pattern⟩, hfind, rfl⟩
    obtain ⟨hpattern, earlier, later, heq, hnone⟩ := List.find?_eq_some_iff_append.1 hfind
    exact ⟨earlier, pattern, later, heq, Pattern.accepts_iff.1 hpattern,
      fun rule hrule => (haccepts rule).1 (hnone rule hrule)⟩

theorem munch_iff :
    Munch category front rest ↔ Candidates.Cuts vocabulary category front rest := by
  constructor
  · rintro ⟨-, hfirst, hlongest⟩
    refine ⟨Category.is_first_iff.1 hfirst, fun more hmore hne => not_is_matched_iff.1 ?_⟩
    refine hlongest _ ((List.prefix_append_right_inj front).2 hmore) ?_
    rw [List.length_append]
    exact Nat.lt_add_of_pos_right (List.length_pos_iff.2 hne)
  · rintro ⟨hmatched, hlongest⟩
    refine ⟨(fits_of_category hmatched).ne_nil, Category.is_first_iff.2 hmatched, ?_⟩
    intro longer hlonger hlength
    -- what is longer begins with the match
    obtain ⟨more, rfl⟩ := List.prefix_of_prefix_length_le (List.prefix_append front rest) hlonger
      hlength.le
    refine not_is_matched_iff.2 (hlongest more ((List.prefix_append_right_inj front).1 hlonger) ?_)
    rintro rfl
    simp at hlength

/-- What is unreadable is what was reached. -/
theorem Unreadable.reach_eq (h : Unreadable front rest) :
    Candidates.reach vocabulary (front ++ rest) = (front, rest) := by
  obtain ⟨reach, ⟨back, hback⟩, hextensible, hlongest, hfront⟩ := h.span
  rw [is_extensible_iff] at hextensible
  rw [← hback] at hlongest hfront ⊢
  have hrest : rest = (reach ++ back).drop (reach.length + 1) := by
    rw [← List.take_append_drop (reach.length + 1) (reach ++ back), ← hfront] at hback
    exact (List.append_cancel_left hback).symm
  cases back with
  | nil =>
      rw [List.append_nil] at hfront hrest ⊢
      rw [List.take_of_length_le (Nat.le_succ _)] at hfront
      rw [List.drop_of_length_le (Nat.le_succ _)] at hrest
      rw [Candidates.reach_of_can_read hextensible, hfront, hrest]
  | cons c back =>
      have hstop : ¬ Candidates.CanRead vocabulary (reach ++ [c]) := by
        intro hmore
        have hle := hlongest (reach ++ [c]) (by simp) (is_extensible_iff.2 hmore)
        rw [List.length_append] at hle
        exact absurd hle (Nat.not_succ_le_self _)
      rw [List.take_length_add_append] at hfront
      rw [List.drop_length_add_append] at hrest
      rw [Candidates.reach_of_stop hextensible hstop, hfront, hrest]
      rfl

theorem Unreadable.first_eq (h : Unreadable front rest) :
    Piece.first (front ++ rest) = (⟨none, front⟩, rest) := by
  rw [Piece.first_of_unmatched, h.reach_eq]
  intro start hstart
  by_cases hne : start = []
  · exact hne ▸ not_is_matched_iff.1 not_is_matched_nil
  · exact not_is_matched_iff.1 (h.unmatched start hstart hne)

/-- Where nothing is matched, something unreadable stands at the head. -/
theorem exists_unreadable (hne : text ≠ [])
    (hnone : ∀ start, start <+: text → ¬ IsMatched start) :
    ∃ front rest, text = front ++ rest ∧ Unreadable front rest := by
  -- no more than `reach` can be extended, and `text` is cut behind the next character
  have hcut (reach : List Char) (hreach : reach <+: text) (hextensible : IsExtensible reach)
      (hlongest : ∀ longer, longer <+: text → IsExtensible longer →
        longer.length ≤ reach.length) :
      ∃ front rest, text = front ++ rest ∧ Unreadable front rest := by
    have heq := (List.take_append_drop (reach.length + 1) text).symm
    refine ⟨_, _, heq, heq ▸ hne, fun start hstart _ => hnone start (heq ▸ hstart), reach, ?_⟩
    rw [← heq]
    exact ⟨hreach, hextensible, hlongest, rfl⟩
  rcases Candidates.can_read_or_stop can_read_nil text with hread | ⟨reach, c, rest, rfl, hread, hstop⟩
  · exact hcut text List.prefix_rfl (is_extensible_iff.2 hread) fun _ hlonger _ => hlonger.length_le
  · refine hcut reach (List.prefix_append reach _) (is_extensible_iff.2 hread) ?_
    intro longer hlonger hextensible
    by_contra hlength
    -- a longer one would begin with the character that cannot be read
    have hbegin : reach ++ [c] <+: longer :=
      List.prefix_of_prefix_length_le (by simp) hlonger (by simp; omega)
    obtain ⟨more, rfl⟩ := hbegin
    exact hstop (is_extensible_iff.1 hextensible).of_append

/-- Any text that is not empty has a longest match at its head or something unreadable. -/
theorem exists_munch_or_unreadable (hne : text ≠ []) : ∃ front rest, text = front ++ rest ∧
    ((∃ category, Munch category front rest) ∨ Unreadable front rest) := by
  cases hlongest : Candidates.longest vocabulary text with
  | some found =>
      obtain ⟨category, front, rest⟩ := found
      obtain ⟨heq, hcuts⟩ := Candidates.longest_eq_some_iff.1 hlongest
      exact ⟨front, rest, heq, .inl ⟨category, munch_iff.2 hcuts⟩⟩
  | none =>
      have hnone := Candidates.longest_eq_none_iff.1 hlongest
      obtain ⟨front, rest, heq, hunreadable⟩ :=
        exists_unreadable hne fun start hstart => not_is_matched_iff.2 (hnone start hstart)
      exact ⟨front, rest, heq, .inr hunreadable⟩

theorem Munch.all_eq (h : Munch category front rest) :
    Piece.all (front ++ rest) = ⟨some category, front⟩ :: Piece.all rest := by
  rw [Piece.all_eq (List.append_ne_nil_of_left_ne_nil h.ne_nil rest),
    Piece.first_of_cuts (munch_iff.1 h)]

theorem Unreadable.all_eq (h : Unreadable front rest) :
    Piece.all (front ++ rest) = ⟨none, front⟩ :: Piece.all rest := by
  rw [Piece.all_eq h.ne_nil, h.first_eq]

theorem Unreadable.front_ne_nil (h : Unreadable front rest) : front ≠ [] := by
  have hfirst := Piece.first_text_ne_nil h.ne_nil
  rwa [h.first_eq] at hfirst

/-- A keyword or a symbol has its own lexical rule, which comes first. -/
theorem Kind.is_first_of_spelling {kind : Kind} {spelling : String}
    (h : kind.spelling? = some spelling) : (Category.token kind).IsFirst spelling.toList := by
  have hall : ∀ kind ∈ Kind.all, ∀ spelling ∈ kind.spelling?,
      Candidates.category? vocabulary spelling.toList = some (.token kind) := by
    decide +kernel
  exact Category.is_first_iff.2 (hall kind kind.mem_all spelling h)

theorem Category.IsFirst.unique {other : Category} (h : category.IsFirst text)
    (hother : other.IsFirst text) : category = other :=
  Option.some.inj ((is_first_iff.1 h).symm.trans (is_first_iff.1 hother))

/-- A match is a keyword exactly if the whole of it is that keyword. -/
theorem Munch.eq_token_iff (h : Munch category front rest) {kind : Kind} {spelling : String}
    (hkind : kind.spelling? = some spelling) :
    category = .token kind ↔ front = spelling.toList := by
  constructor
  · rintro rfl
    obtain ⟨earlier, pattern, later, heq, hmatches, -⟩ := h.first
    have hmem : (Category.token kind, pattern) ∈ vocabulary := by simp [heq]
    rw [eq_word_of_mem_vocabulary hmem hkind] at hmatches
    exact Pattern.eq_of_word hmatches
  · rintro rfl
    exact h.first.unique (Kind.is_first_of_spelling hkind)

end Cutting

/-- There is one outcome only. -/
theorem Lexes.eq_of_pieces {place : Position} {before : Nat} {text : List Char} {found : Lexing}
    (h : Lexes place before text found) :
    found = Lexing.ofPieces place before (Piece.all text) := by
  induction h with
  | done => rfl
  | token hmunch _ ih => rw [hmunch.all_eq, ih]; rfl
  | dropped hcategory hmunch _ ih =>
      rw [hmunch.all_eq, ih]
      rcases hcategory with rfl | rfl <;> rfl
  | unreadable hunreadable _ ih => rw [hunreadable.all_eq, ih]; rfl

/-- There is an outcome. Each piece that is cut off leaves a shorter text. -/
theorem exists_lexes (place : Position) (before : Nat) (text : List Char) :
    ∃ found, Lexes place before text found := by
  induction hlength : text.length using Nat.strong_induction_on generalizing place before text with
  | _ length ih =>
    by_cases hne : text = []
    · subst hne
      exact ⟨_, .done⟩
    · obtain ⟨front, rest, rfl, hcut⟩ := exists_munch_or_unreadable hne
      have hshorter (hfront : front ≠ []) : rest.length < length := by
        rw [← hlength, List.length_append]
        exact Nat.lt_add_of_pos_left (List.length_pos_iff.2 hfront)
      rcases hcut with ⟨category, hmunch⟩ | hunreadable
      · have hnext (before : Nat) :=
          ih _ (hshorter hmunch.ne_nil) (place.advance front) before rest rfl
        cases category with
        | token kind =>
            obtain ⟨found, hfound⟩ := hnext (before + 1)
            exact ⟨_, .token hmunch hfound⟩
        | comment =>
            obtain ⟨found, hfound⟩ := hnext before
            exact ⟨found, .dropped (.inl rfl) hmunch hfound⟩
        | blank =>
            obtain ⟨found, hfound⟩ := hnext before
            exact ⟨found, .dropped (.inr rfl) hmunch hfound⟩
      · obtain ⟨found, hfound⟩ :=
          ih _ (hshorter hunreadable.front_ne_nil) (place.advance front) before rest rfl
        exact ⟨_, .unreadable hunreadable hfound⟩

/-- What is found in a text is what `Lexes` says, and the one thing it says: longest matches, each
of the first rule that reads as far, and one error for each unreadable stretch between them. A match
is a keyword or a symbol exactly if the whole of it is spelled so, and the end is found behind the
last character and nowhere else. -/
theorem Lexing.lexes_iff_of_source (source : String) :
    (∀ found, Lexes .start 0 source.toList found ↔ found = ofSource source) ∧
    (∀ category front rest kind spelling, Munch category front rest →
      Kind.spelling? kind = some spelling →
      (category = .token kind ↔ front = spelling.toList)) ∧
    (ofSource source).eof = .atEnd (Position.start.advance source.toList) ∧
    ∀ token ∈ (ofSource source).tokens, token.kind ≠ .eof := by
  refine ⟨fun found => ⟨Lexes.eq_of_pieces, ?_⟩, fun _ _ _ _ _ hmunch => hmunch.eq_token_iff,
    congrArg Lexing.eof (of_source_eq source), kind_ne_eof_of_mem⟩
  rintro rfl
  obtain ⟨found, hfound⟩ := exists_lexes .start 0 source.toList
  have heq : found = ofSource source := hfound.eq_of_pieces
  rwa [← heq]

/-- A keyword that goes on is an identifier, and a number ends where two points follow. -/
theorem Lexing.lexes_word_and_numbers :
    Lexes .start 0 "INTO <1..5".toList
      ⟨[⟨.identifier, "INTO", ⟨0, 1, 0⟩⟩, ⟨.less, "<", ⟨5, 1, 5⟩⟩, ⟨.intLiteral, "1", ⟨6, 1, 6⟩⟩,
          ⟨.intLiteral, "5", ⟨9, 1, 9⟩⟩],
        .atEnd ⟨10, 1, 10⟩, [⟨"..", ⟨7, 1, 7⟩, 3⟩]⟩ ∧
      ∀ category rest, Munch category "INTO".toList rest → category ≠ .token .kwInt := by
  obtain ⟨hlexes, hkeyword, -⟩ := lexes_iff_of_source "INTO <1..5"
  refine ⟨(hlexes _).2 (by decide +kernel), fun category rest hmunch heq => ?_⟩
  have hword := (hkeyword category _ rest .kwInt "INT" hmunch rfl).1 heq
  exact absurd hword (by decide)

end Little
