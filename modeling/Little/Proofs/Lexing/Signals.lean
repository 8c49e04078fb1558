import Little.Proofs.Lexing.Forms
import Mathlib.Data.List.TakeWhile

/-!
# What a text says

`signals` lists what is left of a text if places, comments and blanks do not count: its tokens, and
a mark for every stretch that cannot be read. Blanks and comments say nothing, wherever a piece ends
before them (`signals_blank`, `signals_comment`), and a token with a blank behind it is read as it
stands (`signals_token`).
-/

namespace Little

/-- What a piece of text says. -/
inductive Signal where
  | token (kind : Kind) (text : List Char)
  | unreadable
deriving DecidableEq, Repr

namespace Piece

/-- What a piece says. Comments and blanks say nothing. -/
def signal? (piece : Piece) : Option Signal :=
  match piece.category with
  | some (.token kind) => some (.token kind piece.text)
  | some .comment | some .blank => none
  | none => some .unreadable

variable {text front rest : List Char} {category : Category}

theorem length_rest_lt (h : text ≠ []) : (first text).2.length < text.length := by
  have hlength := congrArg List.length (first_append text)
  have hpos := List.length_pos_iff.2 (first_text_ne_nil h)
  rw [List.length_append] at hlength
  omega

theorem up_to_cons (bound : Nat) (c : Char) (text : List Char) :
    upTo (bound + 1) (c :: text) = (first (c :: text)).1 :: upTo bound (first (c :: text)).2 := rfl

/-- A bound that is not reached does not matter. -/
theorem up_to_eq {bound other : Nat} (h : text.length ≤ bound) (hother : text.length ≤ other) :
    upTo bound text = upTo other text := by
  induction bound generalizing text other with
  | zero =>
      obtain rfl := List.eq_nil_of_length_eq_zero (Nat.le_zero.1 h)
      cases other <;> rfl
  | succ bound ih =>
      cases text with
      | nil => cases other <;> rfl
      | cons c text =>
          -- each piece leaves a shorter text, so neither bound is reached before the end
          have hlt := length_rest_lt (List.cons_ne_nil c text)
          obtain ⟨other, rfl⟩ : ∃ less, other = less + 1 :=
            ⟨other - 1, by rw [List.length_cons] at hother; omega⟩
          rw [List.length_cons] at h hother hlt
          rw [up_to_cons, up_to_cons, @ih (first (c :: text)).2 other (by omega) (by omega)]

theorem all_eq (h : text ≠ []) : all text = (first text).1 :: all (first text).2 := by
  obtain ⟨c, text, rfl⟩ := List.exists_cons_of_ne_nil h
  have hlt := length_rest_lt h
  rw [List.length_cons] at hlt
  rw [all, List.length_cons, up_to_cons, up_to_eq (Nat.le_of_lt_succ hlt) (Nat.le_refl _)]
  rfl

theorem first_of_cuts (h : Candidates.Cuts vocabulary category front rest) :
    first (front ++ rest) = (⟨some category, front⟩, rest) := by
  rw [first, Candidates.longest_eq_some_iff.2 ⟨rfl, h⟩]

theorem first_of_unmatched
    (h : ∀ front, front <+: text → Candidates.category? vocabulary front = none) :
    first text = (⟨none, (Candidates.reach vocabulary text).1⟩,
      (Candidates.reach vocabulary text).2) := by
  rw [first, Candidates.longest_eq_none_iff.2 h]

end Piece

/-- What a text says. -/
def signals (text : List Char) : List Signal := (Piece.all text).filterMap Piece.signal?

section Signals

variable {text word front rest : List Char} {category : Category} {c : Char}

theorem signals_eq (h : text ≠ []) :
    signals text = (Piece.first text).1.signal?.toList ++ signals (Piece.first text).2 := by
  rw [signals, Piece.all_eq h, List.filterMap_cons]
  cases (Piece.first text).1.signal? <;> rfl

theorem signals_of_cuts (h : Candidates.Cuts vocabulary category front rest) :
    signals (front ++ rest) =
      (Piece.signal? ⟨some category, front⟩).toList ++ signals rest := by
  rw [signals_eq (List.append_ne_nil_of_left_ne_nil (fits_of_category h.matched).ne_nil rest),
    Piece.first_of_cuts h]

/-- Where no rule matches and one could go on throughout, the whole text is unreadable. -/
theorem signals_of_can_read (hne : text ≠ [])
    (hnone : ∀ front, front <+: text → Candidates.category? vocabulary front = none)
    (hread : Candidates.CanRead vocabulary text) : signals text = [.unreadable] := by
  rw [signals_eq hne, Piece.first_of_unmatched hnone, Candidates.reach_of_can_read hread]
  rfl

/-- Where no rule matches, a text is unreadable up to the first character that no rule accepts. -/
theorem signals_of_stop
    (hnone : ∀ start, start <+: front ++ c :: rest →
      Candidates.category? vocabulary start = none)
    (hread : Candidates.CanRead vocabulary front)
    (hstop : ¬ Candidates.CanRead vocabulary (front ++ [c])) :
    signals (front ++ c :: rest) = .unreadable :: signals rest := by
  rw [signals_eq (by simp), Piece.first_of_unmatched hnone,
    Candidates.reach_of_stop hread hstop]
  rfl

/-- A piece ends where whatever begins with it and the next character has none of the forms. -/
theorem cuts_of_stop (hmatched : Candidates.category? vocabulary front = some category)
    (hstop : ∀ c back, rest.head? = some c → ∀ form : Form, ¬ form.Fits (front ++ c :: back)) :
    Candidates.Cuts vocabulary category front rest := by
  refine ⟨hmatched, fun more hstart hne => ?_⟩
  obtain ⟨c, back, rfl⟩ := List.exists_cons_of_ne_nil hne
  have hhead : rest.head? = some c := by
    obtain ⟨_, rfl⟩ := hstart
    rfl
  rw [Option.eq_none_iff_forall_ne_some]
  exact fun other hother => hstop c back hhead other.form (fits_of_category hother)

/-- A run of blanks ends where something else begins. -/
theorem signals_drop_blanks (hblank : CharSet.blank.contains c = true) (text : List Char) :
    signals (c :: text) = signals (text.dropWhile CharSet.blank.contains) := by
  have hall : ∀ d ∈ c :: text.takeWhile CharSet.blank.contains,
      CharSet.blank.contains d = true :=
    List.forall_mem_cons.2 ⟨hblank, fun d hmem => List.mem_takeWhile_imp hmem⟩
  have hcuts : Candidates.Cuts vocabulary .blank (c :: text.takeWhile CharSet.blank.contains)
      (text.dropWhile CharSet.blank.contains) := by
    refine cuts_of_stop (category_of_fits nofun ⟨List.cons_ne_nil _ _, hall⟩) ?_
    intro d back hhead form hfits
    -- what begins with a blank could be blanks only, and the next character is none
    have hform := hfits.of_text_eq
    rw [List.cons_append, Form.of_text_blank hblank] at hform
    subst hform
    have hd := List.head?_dropWhile_not CharSet.blank.contains text
    rw [hhead] at hd
    exact absurd (hfits.2 d (by simp)) (ne_true_of_eq_false (by simpa using hd))
  have hsignals := signals_of_cuts hcuts
  rwa [List.cons_append, List.takeWhile_append_dropWhile] at hsignals

/-- A blank at the head of a text says nothing. -/
theorem signals_blank (hblank : CharSet.blank.contains c = true) (text : List Char) :
    signals (c :: text) = signals text := by
  rw [signals_drop_blanks hblank]
  cases text with
  | nil => rfl
  | cons d text =>
      rw [List.dropWhile_cons]
      split
      · next hd => exact (signals_drop_blanks hd text).symm
      · rfl

/-- A comment at the head of a text says nothing. -/
theorem signals_comment {body : List Char}
    (hbody : ∀ c ∈ body, CharSet.notLineEnd.contains c = true)
    (hrest : ∀ c, rest.head? = some c → CharSet.notLineEnd.contains c = false) :
    signals ('-' :: '-' :: body ++ rest) = signals rest := by
  have hcuts : Candidates.Cuts vocabulary .comment ('-' :: '-' :: body) rest := by
    refine cuts_of_stop (category_of_fits nofun ⟨body, hbody, rfl⟩) ?_
    intro c back hhead form hfits
    -- what begins with two hyphens could be a comment only, and the next character ends the line
    obtain rfl : Form.comment = form := hfits.of_text_eq
    obtain ⟨whole, hwhole, heq⟩ := hfits
    cases heq
    exact absurd (hwhole c (by simp)) (ne_true_of_eq_false (hrest c hhead))
  exact signals_of_cuts hcuts

/-- Nothing with a token in front and a blank behind it is of any form. -/
theorem Form.not_fits_token {form : Form} (hword : Form.plain.Fits word ∨ Form.quoted.Fits word)
    (hblank : CharSet.blank.contains c = true) : ¬ form.Fits (word ++ c :: rest) := by
  intro hfits
  have hform := hfits.of_text_eq
  rcases hword with ⟨hne, hall, hhyphens⟩ | ⟨body, -, rfl⟩
  · -- by its first characters it would be a word, and words have no blanks
    obtain ⟨d, word, rfl⟩ := List.exists_cons_of_ne_nil hne
    obtain ⟨hd, hquote⟩ := hall d List.mem_cons_self
    have hhead : ¬ ['-', '-'] <+: d :: (word ++ c :: rest) := by
      rintro ⟨back, heq⟩
      cases word with
      | nil =>
          cases heq
          exact absurd hblank (by decide)
      | cons e word =>
          cases heq
          exact hhyphens ⟨word, rfl⟩
    rw [List.cons_append, Form.of_text_plain hd hquote hhead] at hform
    subst hform
    exact absurd hblank (ne_true_of_eq_false (hfits.2.1 c (by simp)).1)
  · -- it would be quoted up to its last character, with the first closing quote inside
    obtain rfl : Form.quoted = form := hform
    obtain ⟨whole, hwhole, heq⟩ := hfits
    obtain ⟨init, last, hlast⟩ : ∃ init last, c :: rest = init ++ [last] :=
      ⟨_, _, (List.dropLast_concat_getLast (List.cons_ne_nil c rest)).symm⟩
    rw [hlast, ← List.append_assoc] at heq
    have hinit := List.append_inj_left' heq rfl
    rw [List.cons_append, List.cons_append, List.cons.injEq] at hinit
    rw [← hinit.2] at hwhole
    exact hwhole (by simp)

/-- A token with a blank or nothing behind it is read as it stands. -/
theorem signals_token {kind : Kind}
    (hword : Candidates.category? vocabulary word = some (.token kind))
    (hrest : ∀ c, rest.head? = some c → CharSet.blank.contains c = true) :
    signals (word ++ rest) = .token kind word :: signals rest := by
  have hform : Form.plain.Fits word ∨ Form.quoted.Fits word := by
    have hfits := fits_of_category hword
    cases kind with
    | stringLiteral => exact .inr hfits
    | _ => exact .inl hfits
  exact signals_of_cuts (cuts_of_stop hword fun c back hhead form =>
    Form.not_fits_token hform (hrest c hhead))

end Signals

/-- A token without its place and, if it is a string literal, spelled anew. -/
def Token.respell (spell : String → String) (token : Token) : Token where
  kind := token.kind
  text := if token.kind = .stringLiteral then spell token.text else token.text
  position := .start

namespace Signal

/-- The token, without its place. -/
def token? : Signal → Option Token
  | .token kind text => some ⟨kind, String.ofList text, .start⟩
  | .unreadable => none

/-- How many tokens lie before each unreadable stretch, `before` lying before all of them. -/
def marks (before : Nat) : List Signal → List Nat
  | [] => []
  | .token _ _ :: signals => marks (before + 1) signals
  | .unreadable :: signals => before :: marks before signals

/-- What a piece says, spelled anew if it is a string literal. -/
def respell (spell : String → String) : Signal → Signal
  | .token kind text =>
    .token kind (if kind = .stringLiteral then (spell (String.ofList text)).toList else text)
  | .unreadable => .unreadable

theorem map_respell_id (signals : List Signal) : signals.map (respell id) = signals := by
  have hid : respell id = id := by
    funext signal
    cases signal with
    | token kind text => simp [respell]
    | unreadable => rfl
  rw [hid, List.map_id]

theorem marks_respell (spell : String → String) (before : Nat) (signals : List Signal) :
    marks before (signals.map (respell spell)) = marks before signals := by
  induction signals generalizing before with
  | nil => rfl
  | cons signal signals ih =>
      cases signal with
      | token => exact ih (before + 1)
      | unreadable => exact congrArg (before :: ·) (ih before)

theorem token_respell (spell : String → String) (kind : Kind) (text : List Char)
    (place : Position) : (respell spell (.token kind text)).token? =
      some (Token.respell spell ⟨kind, String.ofList text, place⟩) := by
  simp only [respell, token?, Token.respell]
  split <;> simp

end Signal

namespace Lexing

theorem tokens_of_pieces (spell : String → String) (place : Position) (before : Nat)
    (pieces : List Piece) :
    (ofPieces place before pieces).tokens.map (Token.respell spell) =
      ((pieces.filterMap Piece.signal?).map (Signal.respell spell)).filterMap Signal.token? := by
  induction pieces generalizing place before with
  | nil => rfl
  | cons piece pieces ih =>
      obtain ⟨category, text⟩ := piece
      cases category with
      | none => exact ih (place.advance text) before
      | some category =>
          cases category with
          | token kind =>
              have hsignal : Piece.signal? ⟨some (.token kind), text⟩ = some (.token kind text) :=
                rfl
              rw [List.filterMap_cons_some hsignal, List.map_cons,
                List.filterMap_cons_some (Signal.token_respell spell kind text place)]
              exact congrArg _ (ih (place.advance text) (before + 1))
          | comment | blank => exact ih (place.advance text) before

theorem marks_of_pieces (place : Position) (before : Nat) (pieces : List Piece) :
    (ofPieces place before pieces).errors.map (·.before) =
      Signal.marks before (pieces.filterMap Piece.signal?) := by
  induction pieces generalizing place before with
  | nil => rfl
  | cons piece pieces ih =>
      obtain ⟨category, text⟩ := piece
      cases category with
      | none => exact congrArg (before :: ·) (ih (place.advance text) before)
      | some category =>
          cases category with
          | token kind => exact ih (place.advance text) (before + 1)
          | comment | blank => exact ih (place.advance text) before

/-- The tokens of a text are what it says. -/
theorem tokens_of_source (spell : String → String) (source : String) :
    (ofSource source).tokens.map (Token.respell spell) =
      ((signals source.toList).map (Signal.respell spell)).filterMap Signal.token? :=
  tokens_of_pieces spell _ _ _

/-- Unreadable stretches lie where a text says. -/
theorem marks_of_source (source : String) :
    (ofSource source).errors.map (·.before) = Signal.marks 0 (signals source.toList) :=
  marks_of_pieces _ _ _

end Lexing

end Little
