import Little.Lexicon.Vocabulary

/-!
# The longest match

The rules that may still go on are read along the text side by side. `longest` gives the longest
piece at the head of a text that some rule matches, with the first rule that matches it. `reach`
gives how far some rule could still go on, with the one character behind that.
-/

namespace Little

/-- The lexical rules that are still in play, each with what is left of its pattern. -/
abbrev Candidates := List (Category × Pattern)

namespace Candidates

/-- The candidates that can read the character `c`, with what is then left of them. -/
def step (c : Char) (candidates : Candidates) : Candidates :=
  candidates.filterMap fun (category, pattern) =>
    let left := pattern.deriv c
    if left.isVoid then none else some (category, left)

/-- The first candidate that is complete as it stands. -/
def accepted (candidates : Candidates) : Option Category :=
  (candidates.find? (·.2.nullable)).map (·.1)

/-- The longest match at the head of a text: its rule, its characters, and the rest. -/
def longest (candidates : Candidates) : List Char → Option (Category × List Char × List Char)
  | [] => candidates.accepted.map (·, [], [])
  | c :: text =>
    let next := candidates.step c
    match if next.isEmpty then none else longest next text with
    | some (category, front, rest) => some (category, c :: front, rest)
    | none => candidates.accepted.map (·, [], c :: text)

/-- The characters that some candidate can read, with the first that none can, and the rest. -/
def reach (candidates : Candidates) : List Char → List Char × List Char
  | [] => ([], [])
  | c :: text =>
    let next := candidates.step c
    if next.isEmpty then ([c], text)
    else
      let (front, rest) := reach next text
      (c :: front, rest)

theorem longest_append {candidates : Candidates} {text front rest : List Char}
    {category : Category} (h : candidates.longest text = some (category, front, rest)) :
    text = front ++ rest := by
  induction text generalizing candidates category front rest with
  | nil =>
    obtain ⟨_, _, same⟩ := Option.map_eq_some_iff.1 h
    cases same
    rfl
  | cons c text ih =>
    simp only [longest] at h
    split at h
    · next found =>
      cases h
      split at found
      · cases found
      · rw [ih found, List.cons_append]
    · obtain ⟨_, _, same⟩ := Option.map_eq_some_iff.1 h
      cases same
      rfl

theorem reach_append (candidates : Candidates) (text : List Char) :
    (candidates.reach text).1 ++ (candidates.reach text).2 = text := by
  induction text generalizing candidates with
  | nil => rfl
  | cons c text ih =>
    simp only [reach]
    split
    · rfl
    · simp [ih]

end Candidates

end Little
