import Little.Proofs.Scope.Respelling

/-!
# Layout does not matter

A text can be laid out anew: its tokens in their order, with a blank behind each but the last, and
further blanks and comments as one likes (`LaidOut`). Tokens that stood side by side are not read
differently when they are set apart, and no blank or comment runs into its neighbours, so the new
text says what the old one says (`LaidOut.signals_eq`). `layout_immaterial` takes this through the
parser and the scope pass.
-/

namespace Little

/-- Blanks and comments, each comment with the line break that ends it. -/
inductive Filler : List Char → Prop where
  | none : Filler []
  | blank {c : Char} {rest : List Char} :
      CharSet.blank.contains c = true → Filler rest → Filler (c :: rest)
  | comment {body rest : List Char} {stop : Char} :
      (∀ c ∈ body, CharSet.notLineEnd.contains c = true) →
        CharSet.notLineEnd.contains stop = false → Filler rest →
          Filler ('-' :: '-' :: body ++ stop :: rest)

/-- `LaidOut tokens text` says that `text` is made of the texts of the tokens, with separators
between them that begin with a blank. -/
inductive LaidOut : List Token → List Char → Prop where
  | none : LaidOut [] []
  | last (token : Token) : LaidOut [token] token.text.toList
  | more (token : Token) {next : Token} {tokens : List Token} {c : Char} {gap text : List Char} :
      CharSet.blank.contains c = true → Filler gap → LaidOut (next :: tokens) text →
        LaidOut (token :: next :: tokens) (token.text.toList ++ c :: (gap ++ text))

/-- What ends a line is a blank. -/
theorem blank_of_line_end {c : Char} (h : CharSet.notLineEnd.contains c = false) :
    CharSet.blank.contains c = true := by
  have hcases : c = '\r' ∨ c = '\n' := by
    simpa [CharSet.contains, Classical.or_iff_not_imp_left] using h
  rcases hcases with rfl | rfl <;> decide

theorem Filler.signals_append {gap : List Char} (h : Filler gap) (text : List Char) :
    signals (gap ++ text) = signals text := by
  induction h with
  | none => rfl
  | blank hblank _ ih => exact (signals_blank hblank _).trans ih
  | @comment body rest stop hbody hstop _ ih =>
      have hhead : ∀ c, (stop :: (rest ++ text)).head? = some c →
          CharSet.notLineEnd.contains c = false := by
        rintro c ⟨⟩
        exact hstop
      have hcomment := signals_comment hbody hhead
      rw [signals_blank (blank_of_line_end hstop), ih] at hcomment
      rwa [List.append_assoc]

/-- A text that is laid out anew says what its tokens are. -/
theorem LaidOut.signals_eq {tokens : List Token} {text : List Char} (h : LaidOut tokens text)
    (hread : ∀ token ∈ tokens,
      Candidates.category? vocabulary token.text.toList = some (.token token.kind)) :
    signals text = tokens.map fun token => .token token.kind token.text.toList := by
  induction h with
  | none => rfl
  | last token =>
      have htoken := @signals_token _ [] _ (hread token List.mem_cons_self) nofun
      rwa [List.append_nil] at htoken
  | @more token next tokens c gap text hblank hgap _ ih =>
      rw [List.forall_mem_cons] at hread
      -- the token ends at the blank, whatever it is called and whatever follows
      have hhead : ∀ d, (c :: (gap ++ text)).head? = some d → CharSet.blank.contains d = true := by
        rintro d ⟨⟩
        exact hblank
      rw [signals_token hread.1 hhead, signals_blank hblank, hgap.signals_append, ih hread.2]
      rfl

/-- A text without unreadable stretches says what its tokens are. -/
theorem signals_of_errors_nil {source : String} (h : (Lexing.ofSource source).errors = []) :
    signals source.toList =
      (Lexing.ofSource source).tokens.map fun token => .token token.kind token.text.toList := by
  have htokens := Lexing.tokens_of_source id source
  have hmarks := Lexing.marks_of_source source
  rw [Signal.map_respell_id] at htokens
  rw [h] at hmarks
  -- every unreadable stretch leaves a mark, so without marks there are tokens only
  have hall {signals : List Signal} {before : Nat} (hmarks : [] = Signal.marks before signals) :
      signals = (signals.filterMap Signal.token?).map fun token =>
        .token token.kind token.text.toList := by
    induction signals generalizing before with
    | nil => rfl
    | cons signal signals ih =>
        cases signal with
        | token kind text =>
            have hrest := ih hmarks
            rw [List.filterMap_cons_some (show Signal.token? (.token kind text) = _ from rfl),
              List.map_cons, ← hrest, String.toList_ofList]
        | unreadable => cases hmarks
  rw [hall hmarks, ← htokens, List.map_map]
  refine List.map_congr_left fun token _ => ?_
  simp only [Function.comp_apply, Token.text_respell_id, Token.kind_respell]

/-- Layout does not matter. The tokens of a text without unreadable stretches, laid out anew with
separators of blanks and comments that begin with a blank, are read as they were; so from every rule
the tree is the same, as many things are wrong, and the symbol table is the same or the scope pass
halts alike. -/
theorem layout_immaterial {source layout : String} (h : (Lexing.ofSource source).errors = [])
    (hlayout : LaidOut (Lexing.ofSource source).tokens layout.toList) :
    (Lexing.ofSource layout).errors = [] ∧
    (Lexing.ofSource layout).tokens.map (fun token => (token.kind, token.text)) =
      (Lexing.ofSource source).tokens.map (fun token => (token.kind, token.text)) ∧
    ∀ entry : Rule,
      (Parse.ofSource entry layout).tree.render = (Parse.ofSource entry source).tree.render ∧
      (Parse.ofSource entry layout).diagnostics.length =
        (Parse.ofSource entry source).diagnostics.length ∧
      (analyze (Parse.ofSource entry layout).tree).mapError Halt.atStart =
        (analyze (Parse.ofSource entry source).tree).mapError Halt.atStart := by
  have hsignals : signals layout.toList = (signals source.toList).map (Signal.respell id) := by
    rw [hlayout.signals_eq Lexing.category_of_mem, Signal.map_respell_id,
      signals_of_errors_nil h]
  have halike := Lexing.alike_of_signals id hsignals
  refine ⟨?_, ?_, fun entry => ⟨?_, ?_, ?_⟩⟩
  · have herrors := halike.errors
    rw [h] at herrors
    exact List.map_eq_nil_iff.1 herrors
  · have htokens := congrArg (List.map fun token : Token => (token.kind, token.text)) halike.tokens
    rw [List.map_map, List.map_map] at htokens
    simpa only [Function.comp_def, Token.kind_respell, Token.text_respell_id] using htokens
  · rw [← Tree.render_respell_id, Parse.ofSource, halike.trees entry, Tree.render_respell_id]
    rfl
  · have hproblems := congrArg List.length (halike.problems entry)
    rwa [List.length_map, List.length_map] at hproblems
  · exact analyze_eq_of_respell (halike.trees entry)

/-- Tokens without any blanks between them, set apart by blanks and comments. -/
theorem layout_immaterial_condition :
    (Lexing.ofSource "a:=b<=.5-1").errors = [] ∧
    LaidOut (Lexing.ofSource "a:=b<=.5-1").tokens "a\t:= b --x\n\r<= .5 - -- y\n1".toList ∧
    (Lexing.ofSource "a\t:= b --x\n\r<= .5 - -- y\n1").errors = [] := by
  have herrors : (Lexing.ofSource "a:=b<=.5-1").errors = [] := by decide +kernel
  have htokens : (Lexing.ofSource "a:=b<=.5-1").tokens =
      [⟨.identifier, "a", ⟨0, 1, 0⟩⟩, ⟨.assign, ":=", ⟨1, 1, 1⟩⟩, ⟨.identifier, "b", ⟨3, 1, 3⟩⟩,
        ⟨.lessEqual, "<=", ⟨4, 1, 4⟩⟩, ⟨.floatLiteral, ".5", ⟨6, 1, 6⟩⟩, ⟨.minus, "-", ⟨8, 1, 8⟩⟩,
        ⟨.intLiteral, "1", ⟨9, 1, 9⟩⟩] := by
    decide +kernel
  have hlayout : LaidOut (Lexing.ofSource "a:=b<=.5-1").tokens
      "a\t:= b --x\n\r<= .5 - -- y\n1".toList := by
    rw [htokens]
    have hfirst : Filler "--x\n\r".toList :=
      @Filler.comment ['x'] _ '\n' (List.forall_mem_singleton.2 rfl) rfl (.blank rfl .none)
    have hsecond : Filler "-- y\n".toList :=
      @Filler.comment [' ', 'y'] _ '\n'
        (List.forall_mem_cons.2 ⟨rfl, List.forall_mem_singleton.2 rfl⟩) rfl .none
    exact .more _ (c := '\t') rfl .none (.more _ (c := ' ') rfl .none (.more _ (c := ' ') rfl hfirst
      (.more _ (c := ' ') rfl .none (.more _ (c := ' ') rfl .none (.more _ (c := ' ') rfl hsecond
        (.last _))))))
  exact ⟨herrors, hlayout, (layout_immaterial herrors hlayout).1⟩

end Little
