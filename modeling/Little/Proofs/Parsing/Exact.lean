import Little.Proofs.Lexing.Tokens
import Little.Proofs.Parsing.Complete
import Mathlib.Data.List.TakeWhile

/-!
# The parser accepts exactly the grammar

`parse_accepts_grammar` puts soundness and completeness together for whole texts. A program is
parsed without diagnostics exactly if the lexer has nothing to report and the tokens with the end
mark behind them derive from the grammar; the tree is then their one derivation, up to the places
noted at its nodes. Any other rule is read from a prefix of the tokens, and what is exactly a
sentence of it is read without diagnostics.
-/

namespace Little

theorem interleave_eq_nil_iff {errors : List LexicalError} {faults : List Fault} :
    interleave errors faults = [] ↔ errors = [] ∧ faults = [] := by
  cases faults with
  | nil => simp [interleave]
  | cons fault faults => simp [interleave]

namespace Parse

/-- The state that parsing ends in. -/
def lastState (entry : Rule) (lexing : Lexing) : State :=
  (entry.parse (depthBound lexing.tokens.length) [] (.start lexing.tokens lexing.eof)).2

theorem tree_of_lexing (entry : Rule) (lexing : Lexing) :
    (ofLexing entry lexing).tree =
      (entry.parse (depthBound lexing.tokens.length) [] (.start lexing.tokens lexing.eof)).1 :=
  rfl

theorem diagnostics_of_lexing (entry : Rule) (lexing : Lexing) :
    (ofLexing entry lexing).diagnostics =
      interleave (lexing.errors.takeWhile (·.before < (lastState entry lexing).seen))
        (lastState entry lexing).faults := rfl

/-- Nothing is reported if no fault was noted and no lexical error was met. -/
theorem diagnostics_eq_nil_iff {entry : Rule} {lexing : Lexing} :
    (ofLexing entry lexing).diagnostics = [] ↔
      (lastState entry lexing).faults = [] ∧
        lexing.errors.takeWhile (·.before < (lastState entry lexing).seen) = [] := by
  rw [diagnostics_of_lexing, interleave_eq_nil_iff, And.comm]

/-- Whoever has passed all tokens has met all lexical errors. -/
theorem take_while_errors {entry : Rule} {lexing : Lexing}
    (hbefore : ∀ error ∈ lexing.errors, error.before ≤ lexing.tokens.length)
    (hahead : (lastState entry lexing).ahead = []) :
    lexing.errors.takeWhile (·.before < (lastState entry lexing).seen) = lexing.errors := by
  have hmoves := entry.parse_moves (depthBound lexing.tokens.length) []
    (.start lexing.tokens lexing.eof)
  obtain ⟨htotal, hseen⟩ := hmoves.counts (State.start_counts lexing.tokens lexing.eof)
  change (lastState entry lexing).index + (lastState entry lexing).ahead.length = _ at htotal
  change (lastState entry lexing).index < (lastState entry lexing).seen at hseen
  rw [hahead, List.length_nil, Nat.add_zero] at htotal
  rw [List.takeWhile_eq_self_iff]
  -- an error lies before a token or the mark, and all of them were seen
  intro error hmem
  have hle := hbefore error hmem
  rw [decide_eq_true_eq]
  omega

end Parse

/-- The depth of nesting that a parse starts with is enough. -/
theorem deep_start {rank : Nat} (hrank : rank < Rule.all.length) (tokens : List Token)
    (eof : Token) : Deep (depthBound tokens.length) rank (.start tokens eof) := by
  unfold Deep depthBound
  rw [Nat.mul_succ]
  exact Nat.add_le_add_left (Nat.le_of_lt hrank) _

theorem fit_start (rule : Rule) (tokens : List Token) {eof : Token} (heof : eof.kind = .eof) :
    Fit (depthBound tokens.length) (.rule rule) (.start tokens eof) :=
  ⟨State.start_honest tokens eof, heof, deep_start rule.rank_lt tokens eof⟩

theorem depth_bound_succ (tokens : Nat) : ∃ depth, depthBound tokens = depth + 1 :=
  ⟨_, Nat.mul_succ _ _⟩

section Sources

variable {source : String}

/-- A program without diagnostics has no lexical errors, and its tree derives from its tokens. -/
theorem program_derives (h : (Parse.ofSource .program source).diagnostics = []) :
    (Lexing.ofSource source).errors = [] ∧
      (Parse.ofSource .program source).tree.IsDerivation .program
        ((Lexing.ofSource source).tokens ++ [(Lexing.ofSource source).eof]) := by
  have hbefore : ∀ error ∈ (Lexing.ofSource source).errors,
      error.before ≤ (Lexing.ofSource source).tokens.length := Lexing.before_le_of_mem
  have hkinds : ∀ token ∈ (Lexing.ofSource source).tokens, token.kind ≠ .eof :=
    Lexing.kind_ne_eof_of_mem
  have heof := Lexing.kind_eof_of_source source
  unfold Parse.ofSource at h ⊢
  generalize Lexing.ofSource source = lexing at *
  obtain ⟨hfaults, herrors⟩ := Parse.diagnostics_eq_nil_iff.1 h
  have hfit := fit_start .program lexing.tokens heof
  rw [Parse.tree_of_lexing]
  obtain ⟨depth, hdepth⟩ := depth_bound_succ lexing.tokens.length
  have hlast : Parse.lastState .program lexing =
      (Rule.program.parse (depth + 1) [] (.start lexing.tokens lexing.eof)).2 := by
    rw [← hdepth]
    rfl
  rw [hdepth] at hfit ⊢
  rw [hlast] at hfaults
  obtain ⟨hahead, hderives⟩ := Rule.parse_program_derives hfit hkinds hfaults
  rw [Parse.take_while_errors hbefore (hlast ▸ hahead)] at herrors
  exact ⟨herrors, hderives⟩

/-- Tokens that derive from a program are parsed without diagnostics, and any derivation of them
is the tree that is made. -/
theorem program_parsed {tree : Tree} (herrors : (Lexing.ofSource source).errors = [])
    (htree : tree.IsDerivation .program
      ((Lexing.ofSource source).tokens ++ [(Lexing.ofSource source).eof])) :
    (Parse.ofSource .program source).diagnostics = [] ∧
      tree.bare = (Parse.ofSource .program source).tree.bare := by
  have heof := Lexing.kind_eof_of_source source
  unfold Parse.ofSource
  generalize Lexing.ofSource source = lexing at *
  have hdeep := deep_start Rule.program.rank_lt lexing.tokens lexing.eof
  obtain ⟨depth, hdepth⟩ := depth_bound_succ lexing.tokens.length
  rw [Parse.diagnostics_eq_nil_iff, Parse.tree_of_lexing, Parse.lastState, herrors]
  rw [hdepth] at hdeep ⊢
  have hread := @Rule.parse_program_complete depth [] _ tree rfl heof hdeep htree
  exact ⟨⟨hread.faults, rfl⟩, (List.cons.inj hread.made).1.symm⟩

/-- A rule other than a program that was read without diagnostics derives its tree from the tokens
passed. -/
theorem entry_derives {entry : Rule} (hentry : entry ≠ .program)
    (h : (Parse.ofSource entry source).diagnostics = []) :
    ∃ front back, (Lexing.ofSource source).tokens = front ++ back ∧
      (Parse.ofSource entry source).tree.IsDerivation entry front := by
  have heof := Lexing.kind_eof_of_source source
  unfold Parse.ofSource at h ⊢
  generalize Lexing.ofSource source = lexing at *
  obtain ⟨hfaults, -⟩ := Parse.diagnostics_eq_nil_iff.1 h
  obtain ⟨front, hahead, hderives⟩ :=
    Rule.parse_derives entry [] _ hentry (fit_start entry lexing.tokens heof) hfaults
  exact ⟨front, _, hahead, hderives⟩

/-- A sentence of a rule other than a program is read by it without diagnostics. -/
theorem entry_parsed {entry : Rule} (hentry : entry ≠ .program)
    (herrors : (Lexing.ofSource source).errors = [])
    (h : entry.Derivable (Lexing.ofSource source).tokens) :
    (Parse.ofSource entry source).diagnostics = [] := by
  have heof := Lexing.kind_eof_of_source source
  obtain ⟨tree, htree⟩ := h
  unfold Parse.ofSource
  generalize Lexing.ofSource source = lexing at *
  -- behind a rule to start with stands the end of the text, whatever the rule
  have hawaits : entry.awaits .empty lexing.eof.kind = true := by
    rw [heof]
    exact entry.precedes_eof
  have hready : Ready (depthBound lexing.tokens.length) entry (.rule entry) .empty
      (.start lexing.tokens lexing.eof) lexing.tokens [] :=
    ⟨rfl, heof, (List.append_nil _).symm, hawaits, deep_start entry.rank_lt _ _⟩
  have hread := Rule.parse_complete entry [] _ _ _ tree hentry htree hready
  rw [Parse.diagnostics_eq_nil_iff, herrors]
  exact ⟨hread.faults, rfl⟩

end Sources

/-- A text is parsed as a program without diagnostics exactly if nothing in it is unreadable and
its tokens with the end mark derive from the grammar, and then the tree is their only derivation.
What any other rule reads without diagnostics derives from it, and its sentences are so read. -/
theorem parse_accepts_grammar (source : String) :
    ((Parse.ofSource .program source).diagnostics = [] ↔
      (Lexing.ofSource source).errors = [] ∧
        Rule.program.Derivable
          ((Lexing.ofSource source).tokens ++ [(Lexing.ofSource source).eof])) ∧
    ((Parse.ofSource .program source).diagnostics = [] →
      (Parse.ofSource .program source).tree.IsDerivation .program
        ((Lexing.ofSource source).tokens ++ [(Lexing.ofSource source).eof]) ∧
      (Parse.ofSource .program source).tree.leaves =
        ((Lexing.ofSource source).tokens ++ [(Lexing.ofSource source).eof]).map .leaf ∧
      ∀ other : Tree,
        other.IsDerivation .program
          ((Lexing.ofSource source).tokens ++ [(Lexing.ofSource source).eof]) →
        other.bare = (Parse.ofSource .program source).tree.bare) ∧
    ∀ entry : Rule, entry ≠ .program →
      ((Parse.ofSource entry source).diagnostics = [] →
        ∃ front back, (Lexing.ofSource source).tokens = front ++ back ∧
          (Parse.ofSource entry source).tree.IsDerivation entry front ∧
          (Parse.ofSource entry source).tree.leaves = front.map .leaf) ∧
      ((Lexing.ofSource source).errors = [] → entry.Derivable (Lexing.ofSource source).tokens →
        (Parse.ofSource entry source).diagnostics = []) := by
  refine ⟨⟨fun h => ?_, fun ⟨herrors, tree, htree⟩ => (program_parsed herrors htree).1⟩,
    fun h => ?_, fun entry hentry => ⟨fun h => ?_, entry_parsed hentry⟩⟩
  · obtain ⟨herrors, hderives⟩ := program_derives h
    exact ⟨herrors, _, hderives⟩
  · obtain ⟨herrors, hderives⟩ := program_derives h
    exact ⟨hderives, hderives.leaves_eq, fun other hother => (program_parsed herrors hother).2⟩
  · obtain ⟨front, back, htokens, hderives⟩ := entry_derives hentry h
    exact ⟨front, back, htokens, hderives, hderives.leaves_eq⟩

end Little
