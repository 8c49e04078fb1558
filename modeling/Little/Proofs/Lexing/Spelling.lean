import Little.Proofs.Lexing.Tokens

/-!
# How tokens are spelled

Every token of a text matches the lexical rule of its kind (`Lexing.spelled_of_mem`). So keywords
and symbols have their one spelling, identifiers are letters and digits, and a string literal stands
between two double quotes with none inside (`Token.Spelled.text_eq`, `Token.Spelled.identifier`,
`Token.Spelled.string_literal`).
-/

namespace Little

namespace Pattern

variable {set : CharSet} {rest : Pattern} {text : List Char}

/-- A repeated class of characters stands for characters of that class. -/
theorem matches_star_char_iff :
    Matches (.star (.char set)) text ↔ ∀ c ∈ text, set.contains c = true := by
  constructor
  · intro h
    generalize hpattern : Pattern.star (.char set) = pattern at h
    induction h with
    | empty | char | seq | left | right => cases hpattern
    | done => exact nofun
    | more hround _ _ ih =>
        cases hpattern
        obtain ⟨c, rfl, hc⟩ := matches_char_iff.1 hround
        exact List.forall_mem_cons.2 ⟨hc, ih rfl⟩
  · intro h
    induction text with
    | nil => exact .done
    | cons c text ih =>
        rw [List.forall_mem_cons] at h
        exact .more (.char h.1) (ih h.2)

theorem matches_char_seq_iff : Matches (.seq (.char set) rest) text ↔
    ∃ c back, text = c :: back ∧ set.contains c = true ∧ rest.Matches back := by
  rw [matches_seq_iff]
  constructor
  · rintro ⟨front, back, rfl, hfront, hback⟩
    obtain ⟨c, rfl, hc⟩ := matches_char_iff.1 hfront
    exact ⟨c, back, rfl, hc, hback⟩
  · rintro ⟨c, back, rfl, hc, hback⟩
    exact ⟨[c], back, rfl, .char hc, hback⟩

theorem matches_only_seq_iff {c : Char} : Matches (.seq (.char (.only c)) rest) text ↔
    ∃ back, text = c :: back ∧ rest.Matches back := by
  rw [matches_char_seq_iff]
  constructor
  · rintro ⟨d, back, rfl, hd, hback⟩
    rw [CharSet.contains, beq_iff_eq] at hd
    exact ⟨back, by rw [hd], hback⟩
  · rintro ⟨back, rfl, hback⟩
    exact ⟨c, back, rfl, beq_self_eq_true c, hback⟩

theorem matches_plus_char_iff :
    (plus (.char set)).Matches text ↔ text ≠ [] ∧ ∀ c ∈ text, set.contains c = true := by
  rw [plus, matches_char_seq_iff]
  constructor
  · rintro ⟨c, back, rfl, hc, hback⟩
    exact ⟨List.cons_ne_nil c back,
      List.forall_mem_cons.2 ⟨hc, matches_star_char_iff.1 hback⟩⟩
  · rintro ⟨hne, hall⟩
    obtain ⟨c, back, rfl⟩ := List.exists_cons_of_ne_nil hne
    rw [List.forall_mem_cons] at hall
    exact ⟨c, back, rfl, hall.1, matches_star_char_iff.2 hall.2⟩

/-- A string literal stands between two double quotes and has none inside. -/
theorem matches_string_literal_iff : stringLiteral.Matches text ↔
    ∃ body, '"' ∉ body ∧ text = '"' :: body ++ ['"'] := by
  have hquotes {body : List Char} :
      (∀ c ∈ body, CharSet.notQuote.contains c = true) ↔ '"' ∉ body := by
    simp only [CharSet.contains, bne_iff_ne]
    exact ⟨fun hall hmem => hall _ hmem rfl, fun hmem c hc heq => hmem (heq ▸ hc)⟩
  rw [stringLiteral, matches_only_seq_iff]
  constructor
  · rintro ⟨back, rfl, hback⟩
    obtain ⟨body, last, rfl, hbody, hlast⟩ := matches_seq_iff.1 hback
    obtain ⟨c, rfl, hc⟩ := matches_char_iff.1 hlast
    rw [CharSet.contains, beq_iff_eq] at hc
    exact ⟨body, hquotes.1 (matches_star_char_iff.1 hbody), by rw [hc]; rfl⟩
  · rintro ⟨body, hbody, rfl⟩
    exact ⟨_, rfl, .seq (matches_star_char_iff.2 (hquotes.2 hbody)) (.char rfl)⟩

/-- A comment goes on to the end of its line. -/
theorem matches_comment_iff : comment.Matches text ↔
    ∃ body, (∀ c ∈ body, CharSet.notLineEnd.contains c = true) ∧ text = '-' :: '-' :: body := by
  rw [comment, matches_only_seq_iff]
  constructor
  · rintro ⟨back, rfl, hback⟩
    obtain ⟨body, rfl, hbody⟩ := matches_only_seq_iff.1 hback
    exact ⟨body, matches_star_char_iff.1 hbody, rfl⟩
  · rintro ⟨body, hbody, rfl⟩
    exact ⟨_, rfl, matches_only_seq_iff.2 ⟨body, rfl, matches_star_char_iff.2 hbody⟩⟩

/-- An identifier is made of letters and digits. -/
theorem alphanum_of_identifier (h : identifier.Matches text) :
    text ≠ [] ∧ ∀ c ∈ text, c.isAlphanum = true := by
  obtain ⟨c, back, rfl, hc, hback⟩ := matches_char_seq_iff.1 h
  refine ⟨List.cons_ne_nil c back, List.forall_mem_cons.2 ⟨?_, matches_star_char_iff.1 hback⟩⟩
  rw [Char.isAlphanum, show c.isAlpha = true from hc, Bool.true_or]

/-- A word stands for itself only. -/
theorem eq_of_word {word : List Char} (h : Matches (.word word) text) : text = word := by
  induction word generalizing text with
  | nil => exact matches_empty_iff.1 h
  | cons c word ih =>
      obtain ⟨back, rfl, hback⟩ := matches_only_seq_iff.1 h
      rw [ih hback]

end Pattern

/-- The text of a token matches the lexical rule of its kind. -/
def Token.Spelled (token : Token) : Prop :=
  ∃ pattern, (Category.token token.kind, pattern) ∈ vocabulary ∧
    pattern.Matches token.text.toList

/-- Every token of a text is spelled as its kind asks. -/
theorem Lexing.spelled_of_mem {source : String} :
    ∀ token ∈ (ofSource source).tokens, token.Spelled :=
  fun token hmem => Candidates.exists_of_category (category_of_mem token hmem)

/-- A kind with one spelling has that word for its lexical rule. -/
theorem eq_word_of_mem_vocabulary {kind : Kind} {pattern : Pattern} {spelling : String}
    (h : (Category.token kind, pattern) ∈ vocabulary) (hkind : kind.spelling? = some spelling) :
    pattern = .word spelling.toList := by
  have hall : ∀ rule ∈ vocabulary, ∀ kind ∈ Kind.all, rule.1 = .token kind →
      ∀ spelling ∈ kind.spelling?, rule.2 = .word spelling.toList := by
    decide +kernel
  exact hall _ h kind kind.mem_all rfl spelling hkind

theorem eq_of_mem_vocabulary {kind : Kind} {pattern : Pattern}
    (h : (Category.token kind, pattern) ∈ vocabulary) :
    (kind = .identifier → pattern = .identifier) ∧
      (kind = .stringLiteral → pattern = .stringLiteral) := by
  have hall : ∀ rule ∈ vocabulary,
      (rule.1 = .token .identifier → rule.2 = .identifier) ∧
        (rule.1 = .token .stringLiteral → rule.2 = .stringLiteral) := by
    decide +kernel
  obtain ⟨hident, hstring⟩ := hall _ h
  exact ⟨fun hkind => hident (congrArg _ hkind), fun hkind => hstring (congrArg _ hkind)⟩

namespace Token.Spelled

variable {token : Token}

/-- Keywords and symbols are always spelled alike. -/
theorem text_eq (h : token.Spelled) {spelling : String}
    (hkind : token.kind.spelling? = some spelling) : token.text = spelling := by
  obtain ⟨pattern, hmem, hmatches⟩ := h
  rw [eq_word_of_mem_vocabulary hmem hkind] at hmatches
  exact String.toList_inj.1 (Pattern.eq_of_word hmatches)

/-- An identifier is made of letters and digits. -/
theorem identifier (h : token.Spelled) (hkind : token.kind = .identifier) :
    ∀ c ∈ token.text.toList, c.isAlphanum = true := by
  obtain ⟨pattern, hmem, hmatches⟩ := h
  rw [(eq_of_mem_vocabulary hmem).1 hkind] at hmatches
  exact (Pattern.alphanum_of_identifier hmatches).2

/-- A string literal stands between two double quotes and has none inside. -/
theorem string_literal (h : token.Spelled) (hkind : token.kind = .stringLiteral) :
    ∃ body, '"' ∉ body ∧ token.text.toList = '"' :: body ++ ['"'] := by
  obtain ⟨pattern, hmem, hmatches⟩ := h
  rw [(eq_of_mem_vocabulary hmem).2 hkind] at hmatches
  exact Pattern.matches_string_literal_iff.1 hmatches

end Token.Spelled

end Little
