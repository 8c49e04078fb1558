import Little.Lexicon.CharSet

/-!
# Patterns of lexical rules

`Pattern.Matches` says which texts a pattern stands for. `Pattern.deriv` is what is left of a
pattern once one character has been read, so a text matches exactly if the pattern left after its
last character matches the empty text (`matches_cons_iff`, `matches_nil_iff`). `Pattern.isVoid`
tells when nothing can be matched any more (`is_void_iff`): then no reading on can help.
-/

namespace Little

/-- A regular pattern over characters. -/
inductive Pattern where
  /-- No text at all. -/
  | never
  /-- The empty text. -/
  | empty
  /-- One character of a class. -/
  | char (set : CharSet)
  | seq (first second : Pattern)
  | alt (left right : Pattern)
  /-- Any number of repetitions. -/
  | star (body : Pattern)
deriving DecidableEq, Repr

namespace Pattern

/-- `Matches pattern text` says that the whole of `text` is of the pattern's form. -/
inductive Matches : Pattern → List Char → Prop where
  | empty : Matches .empty []
  | char {set c} : set.contains c = true → Matches (.char set) [c]
  | seq {first second front back} :
      Matches first front → Matches second back → Matches (.seq first second) (front ++ back)
  | left {left right text} : Matches left text → Matches (.alt left right) text
  | right {left right text} : Matches right text → Matches (.alt left right) text
  | done {body} : Matches (.star body) []
  | more {body front back} :
      Matches body front → Matches (.star body) back → Matches (.star body) (front ++ back)

/-- Exactly these characters, one after the other. -/
def word : List Char → Pattern
  | [] => .empty
  | c :: cs => .seq (.char (.only c)) (word cs)

/-- One repetition or more. -/
def plus (body : Pattern) : Pattern := .seq body (.star body)

/-- Whether the empty text matches. -/
def nullable : Pattern → Bool
  | .never | .char _ => false
  | .empty | .star _ => true
  | .seq first second => first.nullable && second.nullable
  | .alt left right => left.nullable || right.nullable

/-- Whether no text matches. -/
def isVoid : Pattern → Bool
  | .never => true
  | .empty | .char _ | .star _ => false
  | .seq first second => first.isVoid || second.isVoid
  | .alt left right => left.isVoid && right.isVoid

/-- Sequence, kept short where a side is trivial. -/
def join : Pattern → Pattern → Pattern
  | .never, _ => .never
  | .empty, second => second
  | first, second => .seq first second

/-- Choice, kept short where a side is trivial. -/
def either : Pattern → Pattern → Pattern
  | .never, right => right
  | left, .never => left
  | left, right => .alt left right

/-- What is left of a pattern after the character `c`. -/
def deriv (c : Char) : Pattern → Pattern
  | .never | .empty => .never
  | .char set => if set.contains c then .empty else .never
  | .seq first second =>
    if first.nullable then either (join (first.deriv c) second) (second.deriv c)
    else join (first.deriv c) second
  | .alt left right => either (left.deriv c) (right.deriv c)
  | .star body => join (body.deriv c) (.star body)

theorem not_matches_never {text : List Char} : ¬ Matches .never text := nofun

theorem matches_empty_iff {text : List Char} : Matches .empty text ↔ text = [] :=
  ⟨fun h => by cases h; rfl, fun h => h ▸ .empty⟩

theorem matches_char_iff {set : CharSet} {text : List Char} :
    Matches (.char set) text ↔ ∃ c, text = [c] ∧ set.contains c = true :=
  ⟨fun | .char h => ⟨_, rfl, h⟩, fun ⟨_, same, h⟩ => same ▸ .char h⟩

theorem matches_seq_iff {first second : Pattern} {text : List Char} :
    Matches (.seq first second) text ↔
      ∃ front back, text = front ++ back ∧ Matches first front ∧ Matches second back :=
  ⟨fun | .seq h k => ⟨_, _, rfl, h, k⟩, fun ⟨_, _, same, h, k⟩ => same ▸ .seq h k⟩

theorem matches_alt_iff {left right : Pattern} {text : List Char} :
    Matches (.alt left right) text ↔ Matches left text ∨ Matches right text :=
  ⟨fun | .left h => .inl h | .right h => .inr h, fun | .inl h => .left h | .inr h => .right h⟩

theorem matches_join_iff {first second : Pattern} {text : List Char} :
    Matches (join first second) text ↔ Matches (.seq first second) text := by
  unfold join
  split
  · simp [matches_seq_iff, not_matches_never]
  · simp only [matches_seq_iff, matches_empty_iff]
    exact ⟨fun h => ⟨[], _, rfl, rfl, h⟩, fun ⟨_, _, same, first, h⟩ => by simp_all⟩
  · rfl

theorem matches_either_iff {left right : Pattern} {text : List Char} :
    Matches (either left right) text ↔ Matches left text ∨ Matches right text := by
  unfold either
  split
  · simp [not_matches_never]
  · simp [not_matches_never]
  · exact matches_alt_iff

/-- A pattern is nullable exactly if the empty text matches. -/
theorem matches_nil_iff {pattern : Pattern} : Matches pattern [] ↔ pattern.nullable = true := by
  induction pattern with
  | never => simp [not_matches_never, nullable]
  | empty => simp [matches_empty_iff, nullable]
  | char => simp [matches_char_iff, nullable]
  | seq _ _ ih ih' =>
    simp only [matches_seq_iff, List.nil_eq, List.append_eq_nil_iff, nullable, Bool.and_eq_true,
      ← ih, ← ih']
    exact ⟨fun ⟨_, _, ⟨hf, hb⟩, h, k⟩ => ⟨hf ▸ h, hb ▸ k⟩, fun ⟨h, k⟩ => ⟨_, _, ⟨rfl, rfl⟩, h, k⟩⟩
  | alt _ _ ih ih' => simp [matches_alt_iff, nullable, ih, ih']
  | star => exact ⟨fun _ => rfl, fun _ => .done⟩

/-- A text that begins with a character and matches a repetition has a first, non-empty round. -/
theorem exists_round {body : Pattern} {c : Char} {text : List Char}
    (h : Matches (.star body) (c :: text)) :
    ∃ front back, text = front ++ back ∧ Matches body (c :: front) ∧ Matches (.star body) back := by
  generalize hp : Pattern.star body = pattern at h
  generalize ht : c :: text = whole at h
  induction h with
  | empty | char | seq | left | right => cases hp
  | done => cases ht
  | @more body' front back first rest _ ih =>
    cases hp
    cases front with
    | nil => exact ih rfl ht
    | cons d front =>
      cases ht
      exact ⟨front, back, rfl, first, rest⟩

/-- The derivative by `c` matches what may follow `c`. -/
theorem matches_cons_iff {pattern : Pattern} {c : Char} {text : List Char} :
    Matches pattern (c :: text) ↔ Matches (pattern.deriv c) text := by
  induction pattern generalizing text with
  | never => simp [not_matches_never, deriv]
  | empty => simp [matches_empty_iff, deriv, not_matches_never]
  | char set =>
    simp only [matches_char_iff, deriv, List.cons.injEq]
    split
    · next h =>
      simp only [matches_empty_iff]
      exact ⟨fun ⟨_, ⟨_, h⟩, _⟩ => h, fun same => ⟨c, ⟨rfl, same⟩, h⟩⟩
    · next h =>
      simp only [not_matches_never, iff_false, not_exists]
      rintro d ⟨⟨rfl, _⟩, k⟩
      exact h k
  | seq first second ih ih' =>
    have split_iff : Matches (.seq first second) (c :: text) ↔
        Matches (.seq (first.deriv c) second) text ∨
          (Matches first [] ∧ Matches second (c :: text)) := by
      simp only [matches_seq_iff]
      constructor
      · rintro ⟨front, back, same, h, k⟩
        cases front with
        | nil => exact .inr ⟨h, by rw [same]; exact k⟩
        | cons d front =>
          cases same
          exact .inl ⟨front, back, rfl, ih.1 h, k⟩
      · rintro (⟨front, back, rfl, h, k⟩ | ⟨h, k⟩)
        · exact ⟨c :: front, back, rfl, ih.2 h, k⟩
        · exact ⟨[], c :: text, rfl, h, k⟩
    rw [split_iff, matches_nil_iff, ih']
    simp only [deriv]
    split
    · next h => simp [matches_either_iff, matches_join_iff, h]
    · next h => simp [matches_join_iff, h]
  | alt _ _ ih ih' => simp only [matches_alt_iff, deriv, matches_either_iff, ih, ih']
  | star body ih =>
    simp only [deriv, matches_join_iff, matches_seq_iff]
    constructor
    · intro h
      obtain ⟨front, back, same, first, rest⟩ := exists_round h
      exact ⟨front, back, same, ih.1 first, rest⟩
    · rintro ⟨front, back, rfl, first, rest⟩
      exact .more (ih.2 first) rest

/-- Nothing matches a void pattern, and something matches any other. -/
theorem is_void_iff {pattern : Pattern} : pattern.isVoid = true ↔ ∀ text, ¬ Matches pattern text := by
  induction pattern with
  | never => simp [isVoid, not_matches_never]
  | empty => simpa [isVoid] using ⟨[], Matches.empty⟩
  | char set => simpa [isVoid] using ⟨[set.sample], Matches.char set.contains_sample⟩
  | seq first second ih ih' =>
    simp only [isVoid, Bool.or_eq_true, ih, ih', matches_seq_iff]
    constructor
    · rintro (h | h) text ⟨front, back, _, first, second⟩
      · exact h front first
      · exact h back second
    · intro h
      by_cases k : ∃ front, Matches first front
      · obtain ⟨front, first⟩ := k
        exact .inr fun back second => h (front ++ back) ⟨front, back, rfl, first, second⟩
      · exact .inl fun front first => k ⟨front, first⟩
  | alt left right ih ih' =>
    simp only [isVoid, Bool.and_eq_true, ih, ih', matches_alt_iff, not_or, forall_and]
  | star body => simpa [isVoid] using ⟨[], Matches.done⟩

end Pattern

end Little
