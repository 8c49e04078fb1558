import Mathlib.Data.List.Forall2
import Little.Proofs.Parsing.Faults

/-!
# The order of diagnostics

Lexical errors are listed in the order of their places and faults in the order of their tokens; no
two faults are listed for one token. The two kinds are merged by what had been looked at
(`pairwise_interleave`): when a fault is listed at a token, the token behind it may have been looked
at, and no more. `diagnostics_in_order` says all this of every text and every rule to start with.
-/

namespace Little

namespace Diagnostic

/-- Where the diagnostic lies: line and column, compared in this order. -/
def place (diagnostic : Diagnostic) : Nat ×ₗ Nat := toLex (diagnostic.line, diagnostic.column)

/-- The diagnostic lies at the token of that number, the mark at the end being the last. -/
def IsAt (diagnostic : Diagnostic) (lexing : Lexing) (index : Nat) : Prop :=
  ∃ token, lexing.marked[index]? = some token ∧ diagnostic.line = token.line ∧
    diagnostic.column = token.column ∧ diagnostic.text = token.text

theorem IsAt.place_eq {diagnostic : Diagnostic} {lexing : Lexing} {index : Nat}
    (h : diagnostic.IsAt lexing index) {token : Token}
    (htoken : lexing.marked[index]? = some token) : diagnostic.place = token.position.place := by
  obtain ⟨found, hfound, hline, hcolumn, -⟩ := h
  obtain rfl := Option.some.inj (hfound.symm.trans htoken)
  rw [place, hline, hcolumn]
  rfl

end Diagnostic

theorem Fault.IsIn.is_at {fault : Fault} {lexing : Lexing} (h : fault.IsIn lexing.marked) :
    fault.diagnostic.IsAt lexing fault.index :=
  ⟨fault.token, h.token, rfl, rfl, rfl⟩

namespace Lexing

/-- Diagnostics about a text as they are listed. -/
structure Lists (lexing : Lexing) (diagnostics : List Diagnostic) : Prop where
  /-- What is lexical follows in the text what is lexical and listed before it. -/
  lexical : (diagnostics.filter (·.phase = .lexical)).Pairwise (·.place < ·.place)
  /-- What is syntactic lies at tokens that follow one another, so at most one at each. -/
  syntactic : ∃ indices : List Nat, indices.Pairwise (· < ·) ∧
    List.Forall₂ (·.IsAt lexing ·) (diagnostics.filter (·.phase = .syntactic)) indices
  /-- What is lexical and listed behind a diagnostic at a token lies behind that token. -/
  behind : diagnostics.Pairwise fun earlier later =>
    earlier.phase = .syntactic → later.phase = .lexical → ∀ index token,
      earlier.IsAt lexing index → lexing.marked[index]? = some token →
        token.position.place < later.place
  /-- What is lexical and listed before a diagnostic at a token lies before the next token. -/
  ahead : diagnostics.Pairwise fun earlier later =>
    earlier.phase = .lexical → later.phase = .syntactic → ∀ index token,
      later.IsAt lexing index → lexing.marked[index + 1]? = some token →
        earlier.place < token.position.place

variable {place : Nat ×ₗ Nat} {before : Nat} {lexing : Lexing}

/-- Tokens follow one another in the text. -/
theorem InOrder.place_lt (h : lexing.InOrder place before) {index other : Nat}
    {token later : Token} (htoken : lexing.marked[index]? = some token)
    (hlater : lexing.marked[other]? = some later) (hlt : index < other) :
    token.position.place < later.position.place := by
  obtain ⟨_, rfl⟩ := List.getElem?_eq_some_iff.1 htoken
  obtain ⟨_, rfl⟩ := List.getElem?_eq_some_iff.1 hlater
  exact List.pairwise_iff_getElem.1 h.tokens _ _ _ _ hlt

/-- A diagnostic lies at one token only. -/
theorem InOrder.index_eq (h : lexing.InOrder place before) {diagnostic : Diagnostic}
    {index other : Nat} (hindex : diagnostic.IsAt lexing index)
    (hother : diagnostic.IsAt lexing other) : index = other := by
  obtain ⟨token, htoken, -⟩ := id hindex
  obtain ⟨found, hfound, -⟩ := id hother
  have hplace := (hindex.place_eq htoken).symm.trans (hother.place_eq hfound)
  rcases Nat.lt_trichotomy index other with hlt | heq | hlt
  · exact absurd hplace (h.place_lt htoken hfound hlt).ne
  · exact heq
  · exact absurd hplace (h.place_lt hfound htoken hlt).ne'

end Lexing

section Merging

variable {errors : List LexicalError} {faults : List Fault}

theorem mem_interleave {diagnostic : Diagnostic} (h : diagnostic ∈ interleave errors faults) :
    (∃ error ∈ errors, diagnostic = error.diagnostic) ∨
      ∃ fault ∈ faults, diagnostic = fault.diagnostic := by
  induction faults generalizing errors with
  | nil =>
      obtain ⟨error, hmem, rfl⟩ := List.mem_map.1 h
      exact .inl ⟨error, hmem, rfl⟩
  | cons fault faults ih =>
      rw [interleave, List.mem_append, List.mem_cons] at h
      rcases h with hearly | rfl | hlate
      · obtain ⟨error, hmem, rfl⟩ := List.mem_map.1 hearly
        exact .inl ⟨error, List.takeWhile_subset _ hmem, rfl⟩
      · exact .inr ⟨fault, List.mem_cons_self, rfl⟩
      · rcases ih hlate with ⟨error, hmem, rfl⟩ | ⟨later, hmem, rfl⟩
        · exact .inl ⟨error, List.dropWhile_subset _ hmem, rfl⟩
        · exact .inr ⟨later, List.mem_cons_of_mem _ hmem, rfl⟩

/-- The faults in a list of diagnostics are those that were put into it. -/
theorem filter_syntactic_interleave (hfaults : ∀ fault ∈ faults, fault.problem.phase = .syntactic) :
    (interleave errors faults).filter (·.phase = .syntactic) = faults.map Fault.diagnostic := by
  have hlexical (errors : List LexicalError) :
      (errors.map LexicalError.diagnostic).filter (·.phase = .syntactic) = [] := by
    rw [List.filter_eq_nil_iff]
    intro diagnostic hmem
    obtain ⟨error, -, rfl⟩ := List.mem_map.1 hmem
    exact Bool.false_ne_true
  induction faults generalizing errors with
  | nil => exact hlexical errors
  | cons fault faults ih =>
      rw [List.forall_mem_cons] at hfaults
      have hfault : fault.diagnostic.phase = .syntactic := hfaults.1
      rw [interleave, List.filter_append, hlexical, List.nil_append, List.filter_cons, hfault,
        if_pos (by decide), ih hfaults.2, List.map_cons]

/-- Where errors are listed by the number of tokens before them, those left from a number on have
at least so many tokens before them. -/
theorem le_before_of_drop_while (seen : Nat) (h : errors.Pairwise (·.before ≤ ·.before)) :
    ∀ error ∈ errors.dropWhile (·.before < seen), seen ≤ error.before := by
  induction errors with
  | nil => exact nofun
  | cons error errors ih =>
      rw [List.pairwise_cons] at h
      rw [List.dropWhile_cons]
      split
      · exact ih h.2
      · next hnot =>
        rw [decide_eq_true_eq, Nat.not_lt] at hnot
        exact List.forall_mem_cons.2
          ⟨hnot, fun later hmem => Nat.le_trans hnot (h.1 later hmem)⟩

/-- What holds of errors in turn and of faults in turn, and of an error and a fault in the order in
which they were found, holds of diagnostics in turn. -/
theorem pairwise_interleave {holds : Diagnostic → Diagnostic → Prop}
    (herrors : errors.Pairwise fun error later =>
      error.before ≤ later.before ∧ holds error.diagnostic later.diagnostic)
    (hfaults : faults.Pairwise fun fault later =>
      fault.seen ≤ later.seen ∧ holds fault.diagnostic later.diagnostic)
    (hseen : ∀ error ∈ errors, ∀ fault ∈ faults, error.before < fault.seen →
      holds error.diagnostic fault.diagnostic)
    (hunseen : ∀ error ∈ errors, ∀ fault ∈ faults, fault.seen ≤ error.before →
      holds fault.diagnostic error.diagnostic) :
    (interleave errors faults).Pairwise holds := by
  induction faults generalizing errors with
  | nil => exact List.pairwise_map.2 (herrors.imp And.right)
  | cons fault faults ih =>
      have hsplit : errors.takeWhile (·.before < fault.seen) ++
          errors.dropWhile (·.before < fault.seen) = errors := List.takeWhile_append_dropWhile
      have hlate := le_before_of_drop_while fault.seen (herrors.imp And.left)
      have hearly : ∀ error ∈ errors.takeWhile (·.before < fault.seen),
          error.before < fault.seen := fun error hmem => by
        simpa using List.mem_takeWhile_imp hmem
      rw [interleave]
      generalize errors.takeWhile (·.before < fault.seen) = early at *
      generalize errors.dropWhile (·.before < fault.seen) = late at *
      subst hsplit
      rw [List.pairwise_append] at herrors
      rw [List.pairwise_cons] at hfaults
      obtain ⟨hfront, hback, hcross⟩ := herrors
      have hrest := ih hback hfaults.2
        (fun error hmem later hlater =>
          hseen error (List.mem_append_right _ hmem) later (List.mem_cons_of_mem _ hlater))
        (fun error hmem later hlater =>
          hunseen error (List.mem_append_right _ hmem) later (List.mem_cons_of_mem _ hlater))
      refine List.pairwise_append.2
        ⟨List.pairwise_map.2 (hfront.imp And.right), List.pairwise_cons.2 ⟨?_, hrest⟩, ?_⟩
      · intro later hmem
        rcases mem_interleave hmem with ⟨error, herror, rfl⟩ | ⟨other, hother, rfl⟩
        · exact hunseen error (List.mem_append_right _ herror) fault List.mem_cons_self
            (hlate error herror)
        · exact (hfaults.1 other hother).2
      · refine List.forall_mem_map.2 fun error herror => List.forall_mem_cons.2 ⟨?_, ?_⟩
        · exact hseen error (List.mem_append_left _ herror) fault List.mem_cons_self
            (hearly error herror)
        · intro later hmem
          rcases mem_interleave hmem with ⟨next, hnext, rfl⟩ | ⟨other, hother, rfl⟩
          · exact (hcross error herror next hnext).2
          · exact hseen error (List.mem_append_left _ herror) other
              (List.mem_cons_of_mem _ hother)
              (Nat.lt_of_lt_of_le (hearly error herror) (hfaults.1 other hother).1)

end Merging

section Texts

variable {place : Nat ×ₗ Nat} {lexing : Lexing}

/-- Whatever is looked at for a fault is looked at for a later one. -/
theorem pairwise_seen {faults : List Fault} (hin : ∀ fault ∈ faults, fault.IsIn lexing.marked)
    (hpairwise : faults.Pairwise (·.index < ·.index)) : faults.Pairwise (·.seen ≤ ·.seen) := by
  refine hpairwise.imp_of_mem fun {fault later} hmem hlater hlt => ?_
  have hle := (hin fault hmem).seen_le
  have hless := (hin later hlater).lt_seen
  omega

/-- Errors and faults that stand in order each by themselves are listed in order. -/
theorem Lexing.InOrder.lists_interleave (h : lexing.InOrder place 0)
    {errors : List LexicalError} {faults : List Fault} (herrors : errors.Sublist lexing.errors)
    (hin : ∀ fault ∈ faults, fault.IsIn lexing.marked)
    (hsyntactic : ∀ fault ∈ faults, fault.problem.phase = .syntactic)
    (hpairwise : faults.Pairwise (·.index < ·.index)) :
    lexing.Lists (interleave errors faults) := by
  have hbefore := (h.errors.sublist herrors).imp And.right
  have hseen := pairwise_seen hin hpairwise
  refine ⟨?_, ?_, ?_, ?_⟩
  · rw [filter_interleave hsyntactic, List.pairwise_map]
    exact (h.errors.sublist herrors).imp And.left
  · refine ⟨faults.map Fault.index, List.pairwise_map.2 hpairwise, ?_⟩
    rw [filter_syntactic_interleave hsyntactic, List.forall₂_map_left_iff,
      List.forall₂_map_right_iff, List.forall₂_same]
    exact fun fault hmem => (hin fault hmem).is_at
  · -- an error that had not been looked at for a fault lies behind the token of the fault
    refine pairwise_interleave (hbefore.imp fun hle => ⟨hle, nofun⟩)
      (hseen.imp_of_mem fun _ hlater hle => ⟨hle, fun _ hphase => ?_⟩) (fun _ _ _ _ _ => nofun)
      fun error herror fault hfault hle _ _ index token hindex htoken => ?_
    · exact absurd ((hsyntactic _ hlater).symm.trans hphase) (by decide)
    · obtain rfl := h.index_eq hindex (hin fault hfault).is_at
      have hlt := (hin fault hfault).lt_seen
      exact h.behind error (herrors.subset herror) _ token htoken (by omega)
  · -- an error that had been looked at lies before the token behind that of the fault
    refine pairwise_interleave (hbefore.imp fun hle => ⟨hle, fun _ => nofun⟩)
      (hseen.imp_of_mem fun hmem _ hle => ⟨hle, fun hphase => ?_⟩)
      (fun error herror fault hfault hlt _ _ index token hindex htoken => ?_)
      fun _ _ _ _ _ _ => nofun
    · exact absurd ((hsyntactic _ hmem).symm.trans hphase) (by decide)
    · obtain rfl := h.index_eq hindex (hin fault hfault).is_at
      have hle := (hin fault hfault).seen_le
      exact h.ahead error (herrors.subset herror) _ token htoken (by omega)

end Texts

/-- The diagnostics of a text are listed in order, whatever the text and the rule it is read by: the
lexical ones by their places, the syntactic ones by their tokens with one at most for each, and both
merged so that they differ from the order in the text by the token behind a fault at most. -/
theorem diagnostics_in_order (entry : Rule) (source : String) :
    (Lexing.ofSource source).Lists (Parse.ofSource entry source).diagnostics := by
  have horder := Lexing.in_order_of_source source
  have heof := Lexing.kind_eof_of_source source
  unfold Parse.ofSource
  generalize Lexing.ofSource source = lexing at *
  have htracks := (entry.parse_moves (depthBound lexing.tokens.length) [] _).tracks
    (State.tracks_start lexing)
  have htrail := entry.parse_trail (depthBound lexing.tokens.length) []
    (.start lexing.tokens lexing.eof)
  have hpairwise := entry.parse_faults_pairwise (depthBound lexing.tokens.length) []
    (State.start_orderly lexing.tokens heof)
  rw [Parse.diagnostics_of_lexing]
  exact horder.lists_interleave (List.takeWhile_sublist _) htracks.faults
    (htrail.syntactic fun _ hmem => absurd hmem List.not_mem_nil) hpairwise

end Little
