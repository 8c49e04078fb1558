import Little.Lexing

/-!
# The longest match is the longest

`Candidates.category?` says what a whole text is: the first rule that matches it.
`longest_eq_some_iff` says that `longest` cuts off a piece that some rule matches while no rule
matches a longer one, and names the first rule that does. `reach_of_stop` says that `reach` stops
behind the first character with which what was read can no longer become a match.
-/

namespace Little

namespace Pattern

/-- Whether a whole text matches. -/
def accepts (pattern : Pattern) (text : List Char) : Bool :=
  (text.foldl (fun pattern c => pattern.deriv c) pattern).nullable

@[simp] theorem accepts_cons (pattern : Pattern) (c : Char) (text : List Char) :
    pattern.accepts (c :: text) = (pattern.deriv c).accepts text := rfl

theorem accepts_iff {pattern : Pattern} {text : List Char} :
    pattern.accepts text = true ↔ pattern.Matches text := by
  induction text generalizing pattern with
  | nil => exact matches_nil_iff.symm
  | cons c text ih => exact ih.trans matches_cons_iff.symm

/-- Nothing that is left over helps a void pattern. -/
theorem accepts_of_void {pattern : Pattern} (h : pattern.isVoid = true) (text : List Char) :
    pattern.accepts text = false := by
  rw [← Bool.not_eq_true, accepts_iff]
  exact is_void_iff.1 h text

end Pattern

namespace Candidates

/-- What a whole text is: the first candidate that matches it. -/
def category? (candidates : Candidates) (text : List Char) : Option Category :=
  (candidates.find? (·.2.accepts text)).map (·.1)

/-- What was read can still become a match. -/
def CanRead (candidates : Candidates) (text : List Char) : Prop :=
  ∃ candidate ∈ candidates, ∃ more, candidate.2.Matches (text ++ more)

/-- A text is `front` and `rest`, and `front` is the longest part at its head that matches. -/
structure Cuts (candidates : Candidates) (category : Category) (front rest : List Char) :
    Prop where
  matched : candidates.category? front = some category
  longest : ∀ more, more <+: rest → more ≠ [] → candidates.category? (front ++ more) = none

variable {candidates : Candidates} {category : Category} {text front rest : List Char} {c : Char}

/-- What is left after a character matches what may follow that character. -/
theorem category_step (candidates : Candidates) (c : Char) (text : List Char) :
    (candidates.step c).category? text = candidates.category? (c :: text) := by
  unfold category? step
  induction candidates with
  | nil => rfl
  | cons candidate candidates ih =>
      obtain ⟨category, pattern⟩ := candidate
      simp only [List.filterMap_cons, List.find?_cons, Pattern.accepts_cons]
      by_cases hvoid : (pattern.deriv c).isVoid = true
      · rw [if_pos hvoid, Pattern.accepts_of_void hvoid]
        exact ih
      · rw [if_neg hvoid]
        simp only [List.find?_cons]
        split
        · rfl
        · exact ih

theorem exists_of_category (h : candidates.category? text = some category) :
    ∃ pattern, (category, pattern) ∈ candidates ∧ pattern.Matches text := by
  obtain ⟨candidate, hfind, rfl⟩ := Option.map_eq_some_iff.1 h
  have haccepts := List.find?_some hfind
  exact ⟨candidate.2, List.mem_of_find?_eq_some hfind, Pattern.accepts_iff.1 haccepts⟩

theorem category_is_some {pattern : Pattern} (h : (category, pattern) ∈ candidates)
    (hmatches : pattern.Matches text) : ∃ first, candidates.category? text = some first := by
  obtain ⟨candidate, hfind⟩ :
      ∃ candidate, candidates.find? (·.2.accepts text) = some candidate :=
    Option.isSome_iff_exists.1
      (List.find?_isSome.2 ⟨(category, pattern), h, Pattern.accepts_iff.2 hmatches⟩)
  exact ⟨candidate.1, by rw [category?, hfind]; rfl⟩

theorem can_read_iff : candidates.CanRead text ↔
    ∃ more category, candidates.category? (text ++ more) = some category := by
  constructor
  · rintro ⟨candidate, hmem, more, hmore⟩
    exact ⟨more, category_is_some hmem hmore⟩
  · rintro ⟨more, category, hcategory⟩
    obtain ⟨pattern, hmem, hmore⟩ := exists_of_category hcategory
    exact ⟨_, hmem, more, hmore⟩

theorem can_read_step : (candidates.step c).CanRead text ↔ candidates.CanRead (c :: text) := by
  simp only [can_read_iff, category_step, List.cons_append]

theorem CanRead.of_append (h : candidates.CanRead (front ++ rest)) : candidates.CanRead front := by
  obtain ⟨candidate, hmem, more, hmore⟩ := h
  exact ⟨candidate, hmem, rest ++ more, by rwa [← List.append_assoc]⟩

/-- A character can be read exactly if some candidate is left after it. -/
theorem can_read_singleton : candidates.CanRead [c] ↔ (candidates.step c).isEmpty = false := by
  rw [← can_read_step]
  constructor
  · rintro ⟨candidate, hmem, -⟩
    exact List.isEmpty_eq_false_iff.2 (List.ne_nil_of_mem hmem)
  · intro h
    obtain ⟨⟨category, left⟩, hmem⟩ := List.exists_mem_of_ne_nil _ (List.isEmpty_eq_false_iff.1 h)
    obtain ⟨⟨_, pattern⟩, -, hstep⟩ := List.mem_filterMap.1 hmem
    -- only what some text can follow is kept
    have hleft : left.isVoid = false := by
      dsimp only at hstep
      split at hstep
      · cases hstep
      · next hvoid =>
        cases hstep
        exact eq_false_of_ne_true hvoid
    obtain ⟨more, hmore⟩ : ∃ more, left.Matches more :=
      Classical.byContradiction fun hnone =>
        absurd (Pattern.is_void_iff.2 (not_exists.1 hnone)) (ne_true_of_eq_false hleft)
    exact ⟨_, hmem, more, hmore⟩

theorem Cuts.of_step (h : (candidates.step c).Cuts category front rest) :
    candidates.Cuts category (c :: front) rest := by
  refine ⟨by rw [← category_step]; exact h.matched, fun more hhead hmore => ?_⟩
  rw [List.cons_append, ← category_step]
  exact h.longest more hhead hmore

/-- What is read after a character is a longest match behind it, if there is any. -/
theorem longest_cons (candidates : Candidates) (c : Char) (text : List Char) :
    candidates.longest (c :: text) =
      ((candidates.step c).longest text).elim (candidates.accepted.map (·, [], c :: text))
        fun (category, front, rest) => some (category, c :: front, rest) := by
  have hnext : (if (candidates.step c).isEmpty then none
      else (candidates.step c).longest text) = (candidates.step c).longest text := by
    split
    · next hempty =>
      rw [List.isEmpty_iff.1 hempty]
      cases text <;> rfl
    · rfl
  rw [longest, hnext]
  cases (candidates.step c).longest text <;> rfl

/-- `longest` cuts off the longest match, and finds none only where there is none. -/
theorem longest_spec (candidates : Candidates) (text : List Char) :
    match candidates.longest text with
    | some (category, front, rest) => text = front ++ rest ∧ candidates.Cuts category front rest
    | none => ∀ front, front <+: text → candidates.category? front = none := by
  induction text generalizing candidates with
  | nil =>
      rw [longest]
      cases haccepted : candidates.accepted with
      | none =>
          intro front hhead
          rw [List.prefix_nil.1 hhead]
          exact haccepted
      | some category =>
          refine ⟨rfl, haccepted, fun more hhead hmore => ?_⟩
          exact absurd (List.prefix_nil.1 hhead) hmore
  | cons c text ih =>
      have hnext := ih (candidates.step c)
      rw [longest_cons]
      revert hnext
      cases (candidates.step c).longest text with
      | some found =>
          rintro ⟨rfl, hcuts⟩
          exact ⟨rfl, hcuts.of_step⟩
      | none =>
          intro hnone
          cases haccepted : candidates.accepted with
          | none =>
              rintro front hhead
              rcases List.prefix_cons_iff.1 hhead with rfl | ⟨front, rfl, hfront⟩
              · exact haccepted
              · exact (category_step ..).symm.trans (hnone front hfront)
          | some category =>
              refine ⟨rfl, haccepted, fun more hhead hmore => ?_⟩
              rcases List.prefix_cons_iff.1 hhead with rfl | ⟨more, rfl, hrest⟩
              · exact absurd rfl hmore
              · exact (category_step ..).symm.trans (hnone more hrest)

/-- Of two cuts of one text neither part at the head is shorter. -/
theorem Cuts.unique {other : Category} {front' rest' : List Char}
    (h : candidates.Cuts category front rest) (hother : candidates.Cuts other front' rest')
    (hlength : front.length ≤ front'.length) (htext : front ++ rest = front' ++ rest') :
    category = other ∧ front = front' ∧ rest = rest' := by
  obtain ⟨more, rfl, rfl⟩ : ∃ more, front' = front ++ more ∧ rest = more ++ rest' := by
    rcases List.append_eq_append_iff.1 htext with ⟨more, hfront, hrest⟩ | ⟨more, hfront, hrest⟩
    · exact ⟨more, hfront, hrest⟩
    · rw [hfront, List.length_append] at hlength
      obtain rfl := List.eq_nil_of_length_eq_zero (show more.length = 0 by omega)
      exact ⟨[], by simpa using hfront.symm, by simpa using hrest.symm⟩
  obtain rfl : more = [] := Classical.byContradiction fun hne => by
    have hnone := h.longest more (List.prefix_append more rest') hne
    rw [hother.matched] at hnone
    cases hnone
  rw [List.append_nil] at hother
  exact ⟨Option.some.inj (h.matched.symm.trans hother.matched), (List.append_nil _).symm, rfl⟩

/-- `longest` cuts a text exactly where its longest match ends. -/
theorem longest_eq_some_iff : candidates.longest text = some (category, front, rest) ↔
    text = front ++ rest ∧ candidates.Cuts category front rest := by
  have hspec := candidates.longest_spec text
  constructor
  · intro h
    rw [h] at hspec
    exact hspec
  · rintro ⟨rfl, hcuts⟩
    cases hfound : candidates.longest (front ++ rest) with
    | none =>
        rw [hfound] at hspec
        have hnone := hspec front (List.prefix_append front rest)
        rw [hcuts.matched] at hnone
        cases hnone
    | some found =>
        obtain ⟨other, front', rest'⟩ := found
        rw [hfound] at hspec
        obtain ⟨htext, hother⟩ := hspec
        rcases Nat.le_total front.length front'.length with hle | hle
        · obtain ⟨rfl, rfl, rfl⟩ := hcuts.unique hother hle htext
          rfl
        · obtain ⟨rfl, rfl, rfl⟩ := hother.unique hcuts hle htext.symm
          rfl

/-- `longest` finds nothing exactly if nothing at the head of the text matches. -/
theorem longest_eq_none_iff : candidates.longest text = none ↔
    ∀ front, front <+: text → candidates.category? front = none := by
  have hspec := candidates.longest_spec text
  constructor
  · intro h
    rw [h] at hspec
    exact hspec
  · intro h
    cases hfound : candidates.longest text with
    | none => rfl
    | some found =>
        obtain ⟨category, front, rest⟩ := found
        rw [hfound] at hspec
        obtain ⟨rfl, hcuts⟩ := hspec
        exact absurd ((h front (List.prefix_append front rest)).symm.trans hcuts.matched) nofun

/-- A text that can be read throughout is reached to its end. -/
theorem reach_of_can_read (h : candidates.CanRead text) : candidates.reach text = (text, []) := by
  induction text generalizing candidates with
  | nil => rfl
  | cons c text ih =>
      have hc : candidates.CanRead [c] :=
        CanRead.of_append (show candidates.CanRead ([c] ++ text) from h)
      simp only [reach]
      rw [can_read_singleton.1 hc, ih (can_read_step.2 h)]
      rfl

/-- Where a character cannot be read any more, `reach` stops behind it. -/
theorem reach_of_stop (h : candidates.CanRead front)
    (hstop : ¬ candidates.CanRead (front ++ [c])) :
    candidates.reach (front ++ c :: rest) = (front ++ [c], rest) := by
  induction front generalizing candidates with
  | nil =>
      rw [List.nil_append, can_read_singleton, Bool.not_eq_false] at hstop
      simp only [List.nil_append, reach]
      rw [if_pos hstop]
  | cons d front ih =>
      have hd : candidates.CanRead [d] :=
        CanRead.of_append (show candidates.CanRead ([d] ++ front) from h)
      rw [List.cons_append, ← can_read_step] at hstop
      simp only [List.cons_append, reach]
      rw [can_read_singleton.1 hd, ih (can_read_step.2 h) hstop]
      rfl

/-- A text can be read throughout, or up to a first character that cannot be read any more. -/
theorem can_read_or_stop (h : candidates.CanRead []) (text : List Char) :
    candidates.CanRead text ∨ ∃ front c rest, text = front ++ c :: rest ∧
      candidates.CanRead front ∧ ¬ candidates.CanRead (front ++ [c]) := by
  induction text generalizing candidates with
  | nil => exact .inl h
  | cons c text ih =>
      by_cases hc : candidates.CanRead [c]
      · rcases ih (can_read_step.2 hc) with hread | ⟨front, d, rest, rfl, hfront, hstop⟩
        · exact .inl (can_read_step.1 hread)
        · rw [can_read_step] at hfront hstop
          exact .inr ⟨c :: front, d, rest, rfl, hfront, hstop⟩
      · exact .inr ⟨[], c, text, rfl, h, hc⟩

end Candidates

end Little
