import Little.Proofs.Lexing.Spelling

/-!
# What lexical rules read looks like

A text that a lexical rule matches is of one of four forms: a string literal, a comment, blanks, or
a word without blanks, double quotes or hyphens in front (`fits_of_category`). Its first characters
tell which (`Form.Fits.of_text_eq`), so no text is of two forms, and all texts of the last three
forms are read by the rule that is named for them (`category_of_fits`).
-/

namespace Little

/-- What a piece of text looks like. -/
inductive Form where
  | plain
  | quoted
  | comment
  | blank
deriving DecidableEq, Repr

/-- What the texts of a lexical rule look like. -/
def Category.form : Category → Form
  | .token .stringLiteral => .quoted
  | .token _ => .plain
  | .comment => .comment
  | .blank => .blank

/-- The rule that reads all texts of a form, if one rule does. -/
def Form.category? : Form → Option Category
  | .plain => none
  | .quoted => some (.token .stringLiteral)
  | .comment => some .comment
  | .blank => some .blank

theorem Category.form_cases (category : Category) :
    category.form = .plain ∨ category.form.category? = some category := by
  cases category with
  | token kind =>
      cases kind with
      | stringLiteral => exact .inr rfl
      | _ => exact .inl rfl
  | comment | blank => exact .inr rfl

/-- Only words have several rules. -/
theorem Category.eq_of_form {category other : Category} (h : category.form = other.form)
    (hform : category.form ≠ .plain) : category = other := by
  have hcategory := category.form_cases.resolve_left hform
  have hother := other.form_cases.resolve_left (h ▸ hform)
  rw [h, hother] at hcategory
  exact (Option.some.inj hcategory).symm

namespace Form

/-- `form.Fits text` says that a text has that form. -/
def Fits : Form → List Char → Prop
  | .plain, text =>
    text ≠ [] ∧ (∀ c ∈ text, CharSet.blank.contains c = false ∧ c ≠ '"') ∧ ¬ ['-', '-'] <+: text
  | .quoted, text => ∃ body, '"' ∉ body ∧ text = '"' :: body ++ ['"']
  | .comment, text =>
    ∃ body, (∀ c ∈ body, CharSet.notLineEnd.contains c = true) ∧ text = '-' :: '-' :: body
  | .blank, text => text ≠ [] ∧ ∀ c ∈ text, CharSet.blank.contains c = true

/-- The form that the first characters of a text allow. -/
def ofText : List Char → Form
  | '"' :: _ => .quoted
  | '-' :: '-' :: _ => .comment
  | c :: _ => if CharSet.blank.contains c then .blank else .plain
  | [] => .plain

theorem of_text_blank {c : Char} (h : CharSet.blank.contains c = true) (text : List Char) :
    ofText (c :: text) = .blank := by
  unfold ofText
  split
  · next heq => cases heq; exact absurd h (by decide)
  · next heq => cases heq; exact absurd h (by decide)
  · next heq => cases heq; exact if_pos h
  · next heq => cases heq

theorem of_text_plain {c : Char} {text : List Char} (hblank : CharSet.blank.contains c = false)
    (hquote : c ≠ '"') (hhyphens : ¬ ['-', '-'] <+: c :: text) : ofText (c :: text) = .plain := by
  unfold ofText
  split
  · next heq => cases heq; exact absurd rfl hquote
  · next rest heq =>
    rw [heq] at hhyphens
    exact absurd (List.prefix_append ['-', '-'] rest) hhyphens
  · next heq => cases heq; exact if_neg (ne_true_of_eq_false hblank)
  · rfl

variable {form : Form} {text : List Char}

/-- The form of a text shows in its first characters. -/
theorem Fits.of_text_eq (h : form.Fits text) : ofText text = form := by
  cases form with
  | plain =>
      obtain ⟨hne, hall, hhyphens⟩ := h
      obtain ⟨c, text, rfl⟩ := List.exists_cons_of_ne_nil hne
      obtain ⟨hblank, hquote⟩ := hall c List.mem_cons_self
      exact of_text_plain hblank hquote hhyphens
  | quoted =>
      obtain ⟨body, -, rfl⟩ := h
      rfl
  | comment =>
      obtain ⟨body, -, rfl⟩ := h
      rfl
  | blank =>
      obtain ⟨hne, hall⟩ := h
      obtain ⟨c, text, rfl⟩ := List.exists_cons_of_ne_nil hne
      exact of_text_blank (hall c List.mem_cons_self) text

theorem Fits.ne_nil (h : form.Fits text) : text ≠ [] := by
  cases form with
  | plain | blank => exact h.1
  | quoted | comment =>
      obtain ⟨body, -, rfl⟩ := h
      exact List.cons_ne_nil _ _

/-- A word of letters, digits and points. -/
theorem fits_plain (hne : text ≠ []) (h : ∀ c ∈ text, c.isAlphanum = true ∨ c = '.') :
    Form.plain.Fits text := by
  have hnot (c : Char) (hother : c.isAlphanum = false ∧ c ≠ '.') : c ∉ text := fun hmem =>
    (h c hmem).elim (ne_true_of_eq_false hother.1) hother.2
  refine ⟨hne, fun c hmem => ⟨?_, fun heq => ?_⟩, fun hhead => ?_⟩
  · rw [← Bool.not_eq_true]
    intro hblank
    simp only [CharSet.contains, Bool.or_eq_true, beq_iff_eq] at hblank
    rcases hblank with ((rfl | rfl) | rfl) | rfl <;> exact hnot _ (by decide) hmem
  · exact hnot '"' (by decide) (heq ▸ hmem)
  · exact hnot '-' (by decide) (hhead.subset List.mem_cons_self)

end Form

/-- The lexical rules are the spellings and a few more. -/
theorem mem_vocabulary {category : Category} {pattern : Pattern}
    (h : (category, pattern) ∈ vocabulary) :
    (∃ kind spelling, Kind.spelling? kind = some spelling ∧ category = .token kind ∧
      pattern = .word spelling.toList) ∨
    (category, pattern) ∈ [(.token .identifier, .identifier), (.token .intLiteral, .intLiteral),
      (.token .floatLiteral, .floatLiteral), (.token .stringLiteral, .stringLiteral),
      (.comment, .comment), (Category.blank, Pattern.blanks)] := by
  rcases List.mem_append.1 h with h | h
  · obtain ⟨kind, -, hkind⟩ := List.mem_filterMap.1 h
    obtain ⟨spelling, hspelling, heq⟩ := Option.map_eq_some_iff.1 hkind
    cases heq
    exact .inl ⟨kind, spelling, hspelling, rfl, rfl⟩
  · exact .inr h

/-- Keywords and symbols are words. -/
theorem Kind.fits_spelling {kind : Kind} {spelling : String} (h : kind.spelling? = some spelling) :
    (Category.token kind).form = .plain ∧ Form.plain.Fits spelling.toList := by
  have hall : ∀ kind ∈ Kind.all, ∀ spelling ∈ kind.spelling?,
      (Category.token kind).form = .plain ∧ spelling.toList ≠ [] ∧
        (spelling.toList.all fun c => !CharSet.blank.contains c && c != '"') = true ∧
        ['-', '-'].isPrefixOf spelling.toList = false := by
    decide +kernel
  obtain ⟨hform, hne, hletters, hhyphens⟩ := hall kind kind.mem_all spelling h
  refine ⟨hform, hne, by simpa using hletters, fun hstart => ?_⟩
  rw [List.isPrefixOf_iff_prefix.2 hstart] at hhyphens
  cases hhyphens

section Vocabulary

variable {category : Category} {pattern : Pattern} {text : List Char}

theorem alphanum_of_digits (h : ∀ c ∈ text, CharSet.digit.contains c = true) :
    ∀ c ∈ text, c.isAlphanum = true ∨ c = '.' := by
  intro c hmem
  have hdigit : c.isDigit = true := h c hmem
  rw [Char.isAlphanum, hdigit, Bool.or_true]
  exact .inl rfl

theorem fits_of_float_literal (h : Pattern.floatLiteral.Matches text) : Form.plain.Fits text := by
  obtain ⟨front, _, rfl, hfront, hback⟩ := Pattern.matches_seq_iff.1 h
  obtain ⟨decimals, rfl, hdecimals⟩ := Pattern.matches_only_seq_iff.1 hback
  refine Form.fits_plain (by simp) fun c hmem => ?_
  rcases List.mem_append.1 hmem with hmem | hmem
  · exact alphanum_of_digits (Pattern.matches_star_char_iff.1 hfront) c hmem
  · rcases List.mem_cons.1 hmem with rfl | hmem
    · exact .inr rfl
    · exact alphanum_of_digits (Pattern.matches_plus_char_iff.1 hdecimals).2 c hmem

/-- What a lexical rule matches has the form of that rule. -/
theorem fits_of_matches (h : (category, pattern) ∈ vocabulary) (hmatches : pattern.Matches text) :
    category.form.Fits text := by
  rcases mem_vocabulary h with ⟨kind, spelling, hspelling, rfl, rfl⟩ | h
  · obtain ⟨hform, hfits⟩ := kind.fits_spelling hspelling
    rw [Pattern.eq_of_word hmatches, hform]
    exact hfits
  · simp only [List.mem_cons, List.not_mem_nil, or_false, Prod.mk.injEq] at h
    rcases h with ⟨rfl, rfl⟩ | ⟨rfl, rfl⟩ | ⟨rfl, rfl⟩ | ⟨rfl, rfl⟩ | ⟨rfl, rfl⟩ | ⟨rfl, rfl⟩
    · obtain ⟨hne, hall⟩ := Pattern.alphanum_of_identifier hmatches
      exact Form.fits_plain hne fun c hmem => .inl (hall c hmem)
    · obtain ⟨hne, hall⟩ := Pattern.matches_plus_char_iff.1 hmatches
      exact Form.fits_plain hne (alphanum_of_digits hall)
    · exact fits_of_float_literal hmatches
    · exact Pattern.matches_string_literal_iff.1 hmatches
    · exact Pattern.matches_comment_iff.1 hmatches
    · exact Pattern.matches_plus_char_iff.1 hmatches

/-- What a text is shows in its form. -/
theorem fits_of_category (h : Candidates.category? vocabulary text = some category) :
    category.form.Fits text := by
  obtain ⟨pattern, hmem, hmatches⟩ := Candidates.exists_of_category h
  exact fits_of_matches hmem hmatches

/-- A text of a form that one rule only has is read by that rule. -/
theorem category_of_fits (hform : category.form ≠ .plain) (h : category.form.Fits text) :
    Candidates.category? vocabulary text = some category := by
  obtain ⟨pattern, hmem, hmatches⟩ : ∃ pattern, (category, pattern) ∈ vocabulary ∧
      pattern.Matches text := by
    cases category with
    | token kind =>
        cases kind with
        | stringLiteral =>
            exact ⟨.stringLiteral, by decide +kernel, Pattern.matches_string_literal_iff.2 h⟩
        | _ => exact absurd rfl hform
    | comment => exact ⟨.comment, by decide +kernel, Pattern.matches_comment_iff.2 h⟩
    | blank => exact ⟨.blanks, by decide +kernel, Pattern.matches_plus_char_iff.2 h⟩
  obtain ⟨first, hfirst⟩ := Candidates.category_is_some hmem hmatches
  have hsame : first.form = category.form :=
    (fits_of_category hfirst).of_text_eq.symm.trans h.of_text_eq
  rw [hfirst, Category.eq_of_form hsame (hsame ▸ hform)]

/-- Any text may follow. -/
theorem can_read_nil : Candidates.CanRead vocabulary [] :=
  ⟨(.blank, .blanks), by decide +kernel, [' '],
    Pattern.matches_plus_char_iff.2 ⟨List.cons_ne_nil _ _, List.forall_mem_singleton.2 rfl⟩⟩

end Vocabulary

end Little
