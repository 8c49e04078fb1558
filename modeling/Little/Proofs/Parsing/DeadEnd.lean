import Mathlib.Order.Bounds.Basic
import Little.Proofs.Parsing.Order
import Little.Proofs.Parsing.Passing
import Little.Proofs.Parsing.Viable

/-!
# The first fault lies at the dead end

A text stops being a program at the first token with which the tokens so far are the first ones of
no program any more. `first_fault_at_dead_end` says that faults are noted exactly if the text is no
program, and that the first one lies at this very token. It does not lie behind it, since what was
passed before it is viable (`Parse.viable_before_fault`), and not before it, since what is viable is
passed (`Parse.le_fault_of_viable`). The mark at the end is a token like any other here: a program
that is cut short stops being one at the mark.
-/

namespace Little

section Programs

variable {lexing : Lexing}

/-- Faults are noted in a program exactly if the tokens and the mark behind them are none. -/
theorem Parse.faults_eq_nil_iff (heof : lexing.eof.kind = .eof)
    (hkinds : ∀ token ∈ lexing.tokens, token.kind ≠ .eof) :
    (lastState .program lexing).faults = [] ↔ Rule.program.Derivable lexing.marked := by
  obtain ⟨depth, hdepth⟩ := depth_bound_succ lexing.tokens.length
  have hfit := fit_start .program lexing.tokens heof
  rw [lastState]
  rw [hdepth] at hfit ⊢
  constructor
  · intro hfaults
    exact ⟨_, (Rule.parse_program_derives hfit hkinds hfaults).2⟩
  · intro h
    obtain ⟨tree, htree⟩ := h
    exact (@Rule.parse_program_complete depth [] (.start lexing.tokens lexing.eof) tree rfl heof
      hfit.deep htree).faults

/-- A program ends with the mark at the end. -/
theorem derivable_of_viable_marked (heof : lexing.eof.kind = .eof)
    (h : Viable (.rule .program) lexing.marked) : Rule.program.Derivable lexing.marked := by
  obtain ⟨rest, tree, htree⟩ := viable_rule_iff.1 h
  obtain ⟨_, _, _, -, hbody⟩ := Tree.is_derivation_iff.1 htree
  have hmarked : lexing.marked ++ rest = lexing.tokens ++ lexing.eof :: rest := by
    rw [Lexing.marked, List.append_assoc, List.singleton_append]
  rw [hmarked] at hbody
  have hnil := hbody.eq_nil_of_ends Rule.ends_body_program heof
  rw [hnil, List.append_nil] at htree
  exact ⟨tree, htree⟩

theorem take_marked {count : Nat} (hcount : count ≤ lexing.tokens.length) :
    lexing.marked.take count = lexing.tokens.take count :=
  List.take_append_of_le_length hcount

/-- At the first fault the tokens stop being the first ones of a program. -/
theorem Parse.first_fault_is_least (heof : lexing.eof.kind = .eof)
    (hkinds : ∀ token ∈ lexing.tokens, token.kind ≠ .eof) {fault : Fault}
    (hfault : (lastState .program lexing).faults.head? = some fault)
    (hin : fault.IsIn lexing.marked) :
    IsLeast {index | ¬ Viable (.rule .program) (lexing.marked.take (index + 1))} fault.index := by
  have hmem := List.mem_of_head? hfault
  have hle : fault.index ≤ lexing.tokens.length := by
    obtain ⟨hlt, -⟩ := List.getElem?_eq_some_iff.1 hin.token
    rw [Lexing.marked, List.length_append, List.length_singleton] at hlt
    omega
  refine ⟨fun hviable => ?_, fun other hother => ?_⟩
  · rcases Nat.lt_or_eq_of_le hle with hlt | heq
    · rw [take_marked hlt] at hviable
      have hnext := le_fault_of_viable .program lexing heof hlt hviable fault hmem
      omega
    · -- the mark itself is in view: it can only end a program
      have hall : lexing.marked.take (fault.index + 1) = lexing.marked := by
        rw [heq, Lexing.marked, List.take_of_length_le]
        rw [List.length_append, List.length_singleton]
      rw [hall] at hviable
      have hnone := (faults_eq_nil_iff heof hkinds).2 (derivable_of_viable_marked heof hviable)
      rw [hnone] at hmem
      exact List.not_mem_nil hmem
  · by_contra hlt
    rw [Nat.not_le] at hlt
    refine hother ?_
    rw [take_marked (by omega)]
    exact (viable_before_fault .program lexing heof hfault).of_longer
      (List.take_prefix_take_left (by omega))

end Programs

/-- A text has syntactic diagnostics exactly if its tokens with the mark at the end are no program.
The first of them lies at the first token with which the tokens so far are the first ones of no
program. -/
theorem first_fault_at_dead_end (source : String) :
    ((∃ diagnostic ∈ (Parse.ofSource .program source).diagnostics,
        diagnostic.phase = .syntactic) ↔
      ¬ Rule.program.Derivable (Lexing.ofSource source).marked) ∧
    ∀ diagnostic,
      (Parse.ofSource .program source).diagnostics.find? (·.phase = .syntactic) =
        some diagnostic →
      ∃ index, diagnostic.IsAt (Lexing.ofSource source) index ∧
        IsLeast {index | ¬ ∃ rest, Rule.program.Derivable
          ((Lexing.ofSource source).marked.take (index + 1) ++ rest)} index := by
  have heof := Lexing.kind_eof_of_source source
  have hkinds : ∀ token ∈ (Lexing.ofSource source).tokens, token.kind ≠ .eof :=
    Lexing.kind_ne_eof_of_mem
  unfold Parse.ofSource
  generalize Lexing.ofSource source = lexing at *
  have htracks := (Rule.program.parse_moves (depthBound lexing.tokens.length) [] _).tracks
    (State.tracks_start lexing)
  have htrail := Rule.program.parse_trail (depthBound lexing.tokens.length) []
    (.start lexing.tokens lexing.eof)
  have hsyntactic : ∀ fault ∈ (Parse.lastState .program lexing).faults,
      fault.problem.phase = .syntactic :=
    htrail.syntactic fun _ hmem => absurd hmem List.not_mem_nil
  rw [Parse.diagnostics_of_lexing]
  generalize lexing.errors.takeWhile _ = errors
  have hfilter := @filter_syntactic_interleave errors _ hsyntactic
  refine ⟨?_, fun diagnostic hfirst => ?_⟩
  · rw [← Parse.faults_eq_nil_iff heof hkinds,
      ← @List.map_eq_nil_iff _ _ Fault.diagnostic, ← hfilter, List.filter_eq_nil_iff]
    simp only [decide_eq_true_eq, not_forall, not_not, exists_prop]
  · rw [← List.head?_filter, hfilter, List.head?_map,
      Option.map_eq_some_iff] at hfirst
    obtain ⟨fault, hfault, rfl⟩ := hfirst
    have hin := htracks.faults fault (List.mem_of_head? hfault)
    simp only [← viable_rule_iff]
    exact ⟨fault.index, hin.is_at, Parse.first_fault_is_least heof hkinds hfault hin⟩

end Little
