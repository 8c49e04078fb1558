import Little.Proofs.Lexing.Signals
import Little.Source.Newline

/-!
# Line breaks do not matter to the lexer

With every line break written as a line feed a text says what it said before, with the line breaks
in its string literals unified (`signals_unify`). Unifying joins two characters to one, but never
across the end of a piece that a rule has read, and what a rule matches or can go on with does not
depend on it (`category_unify`, `can_read_unify`). An unreadable stretch can end between the two;
then the line feed left over is a blank.
-/

namespace Little

section Unify

variable {text front back : List Char}

/-- Unifying goes on side by side unless a line break is cut in two. -/
theorem unify_append (h : ¬ (front.getLast? = some '\r' ∧ back.head? = some '\n')) :
    unifyNewlines (front ++ back) = unifyNewlines front ++ unifyNewlines back := by
  fun_induction unifyNewlines front with
  | case1 => rfl
  | case2 rest ih =>
      refine congrArg ('\n' :: ·) (ih fun hcut => h ⟨?_, hcut.2⟩)
      rw [List.getLast?_cons_cons, List.getLast?_cons, hcut.1]
      rfl
  | case3 rest hrest ih =>
      have hnot : ∀ more, rest ++ back = '\n' :: more → False := by
        intro more heq
        cases rest with
        | nil => exact h ⟨rfl, by rw [show back = _ from heq]; rfl⟩
        | cons c rest =>
            cases heq
            exact hrest rest rfl
      rw [List.cons_append, unifyNewlines.eq_3 _ hnot]
      refine congrArg ('\n' :: ·) (ih fun hcut => h ⟨?_, hcut.2⟩)
      rw [List.getLast?_cons, hcut.1]
      rfl
  | case4 c rest hrest hc ih =>
      rw [List.cons_append, unifyNewlines.eq_4 _ _ (fun more hmore _ => hc hmore) hc]
      refine congrArg (c :: ·) (ih fun hcut => h ⟨?_, hcut.2⟩)
      rw [List.getLast?_cons, hcut.1]
      rfl

theorem unify_append_of_head (front : List Char) (h : back.head? ≠ some '\n') :
    unifyNewlines (front ++ back) = unifyNewlines front ++ unifyNewlines back :=
  unify_append fun hcut => h hcut.2

/-- A text without carriage returns is unified already. -/
theorem unify_of_not_mem (h : '\r' ∉ text) : unifyNewlines text = text := by
  fun_induction unifyNewlines text with
  | case1 => rfl
  | case2 rest | case3 rest => exact absurd List.mem_cons_self h
  | case4 c rest _ _ ih => rw [ih fun hmem => h (List.mem_cons_of_mem c hmem)]

/-- Unifying keeps all characters but line breaks. -/
theorem mem_unify_iff {c : Char} (hreturn : c ≠ '\r') (hfeed : c ≠ '\n') :
    c ∈ unifyNewlines text ↔ c ∈ text := by
  fun_induction unifyNewlines text with
  | case1 => rfl
  | case2 rest ih => simp [hreturn, hfeed, ih]
  | case3 rest _ ih => simp [hreturn, hfeed, ih]
  | case4 d rest _ _ ih => rw [List.mem_cons, List.mem_cons, ih]

/-- What holds of line breaks and of all characters of a text, holds of it once it is unified. -/
theorem forall_mem_unify_iff {holds : Char → Prop} (hreturn : holds '\r') (hfeed : holds '\n') :
    (∀ c ∈ unifyNewlines text, holds c) ↔ ∀ c ∈ text, holds c := by
  fun_induction unifyNewlines text with
  | case1 => rfl
  | case2 rest ih => simp [hreturn, hfeed, ih]
  | case3 rest _ ih => simp [hreturn, hfeed, ih]
  | case4 c rest _ _ ih => rw [List.forall_mem_cons, List.forall_mem_cons, ih]

theorem unify_eq_nil_iff : unifyNewlines text = [] ↔ text = [] := by
  fun_cases unifyNewlines text <;> simp

/-- Unifying keeps line breaks. -/
theorem line_feed_mem_unify_iff : '\n' ∈ unifyNewlines text ↔ '\r' ∈ text ∨ '\n' ∈ text := by
  fun_induction unifyNewlines text with
  | case1 => simp
  | case2 rest ih => simp
  | case3 rest _ ih => simp
  | case4 c rest _ hc ih =>
      have hreturn : '\r' ≠ c := fun heq => hc heq.symm
      simp only [List.mem_cons, ih, hreturn, false_or]
      exact or_left_comm

/-- The last character stays, but for a carriage return. -/
theorem last_unify (text : List Char) :
    (unifyNewlines text).getLast? =
      text.getLast?.map fun c => if c = '\r' then '\n' else c := by
  fun_induction unifyNewlines text with
  | case1 => rfl
  | case2 rest ih =>
      rw [List.getLast?_cons_cons, List.getLast?_cons, List.getLast?_cons, ih]
      cases rest.getLast? <;> rfl
  | case3 rest _ ih =>
      rw [List.getLast?_cons, List.getLast?_cons, ih]
      cases rest.getLast? <;> rfl
  | case4 c rest _ hc ih =>
      rw [List.getLast?_cons, List.getLast?_cons, ih]
      cases rest.getLast? with
      | none => exact congrArg some (if_neg hc).symm
      | some d => rfl

/-- What begins with anything but a line feed once it is unified, began so before. -/
theorem exists_of_unify_cons {c : Char} (h : unifyNewlines text = c :: back) (hc : c ≠ '\n') :
    ∃ rest, text = c :: rest ∧ unifyNewlines rest = back := by
  fun_cases unifyNewlines text with
  | case1 => cases h
  | case2 rest =>
      cases h
      exact absurd rfl hc
  | case3 rest hrest =>
      rw [unifyNewlines.eq_3 rest hrest] at h
      cases h
      exact absurd rfl hc
  | case4 d rest hrest hd =>
      rw [unifyNewlines.eq_4 d rest hrest hd] at h
      cases h
      exact ⟨rest, rfl, rfl⟩

/-- Unifying goes on from left to right. -/
theorem exists_unify_append (front back : List Char) :
    ∃ rest, unifyNewlines (front ++ back) = unifyNewlines front ++ rest := by
  by_cases hcut : front.getLast? = some '\r' ∧ back.head? = some '\n'
  · obtain ⟨back, rfl⟩ := List.head?_eq_some_iff.1 hcut.2
    obtain ⟨front, rfl⟩ := List.getLast?_eq_some_iff.1 hcut.1
    refine ⟨unifyNewlines back, ?_⟩
    rw [List.append_assoc, List.singleton_append, unify_append_of_head front (by simp),
      unify_append_of_head front (by simp), List.append_assoc]
    rfl
  · exact ⟨_, unify_append hcut⟩

/-- What stands at the head of a unified text comes from the head of the text. -/
theorem exists_prefix_of_unify {start : List Char} (h : start <+: unifyNewlines text) :
    ∃ front, front <+: text ∧ unifyNewlines front = start := by
  fun_induction unifyNewlines text generalizing start with
  | case1 => exact ⟨[], List.nil_prefix, (List.prefix_nil.1 h).symm⟩
  | case2 rest ih =>
      rcases List.prefix_cons_iff.1 h with rfl | ⟨start, rfl, hstart⟩
      · exact ⟨[], List.nil_prefix, rfl⟩
      · obtain ⟨front, hfront, rfl⟩ := ih hstart
        exact ⟨'\r' :: '\n' :: front, by simpa using hfront, rfl⟩
  | case3 rest hrest ih =>
      rcases List.prefix_cons_iff.1 h with rfl | ⟨start, rfl, hstart⟩
      · exact ⟨[], List.nil_prefix, rfl⟩
      · obtain ⟨front, hfront, rfl⟩ := ih hstart
        have hnot : ∀ more, front = '\n' :: more → False := by
          rintro more rfl
          obtain ⟨back, rfl⟩ := hfront
          exact hrest _ rfl
        exact ⟨'\r' :: front, by simpa using hfront, unifyNewlines.eq_3 front hnot⟩
  | case4 c rest _ hc ih =>
      rcases List.prefix_cons_iff.1 h with rfl | ⟨start, rfl, hstart⟩
      · exact ⟨[], List.nil_prefix, rfl⟩
      · obtain ⟨front, hfront, rfl⟩ := ih hstart
        exact ⟨c :: front, by simpa using hfront,
          unifyNewlines.eq_4 c front (fun more hmore _ => hc hmore) hc⟩

end Unify

section Reading

variable {text front rest : List Char} {form : Form} {c : Char}

/-- Words and comments have no line breaks. -/
theorem Form.Fits.line_end_not_mem (h : form.Fits text) (hform : form = .plain ∨ form = .comment) :
    '\r' ∉ text ∧ '\n' ∉ text := by
  rcases hform with rfl | rfl
  · exact ⟨fun hmem => absurd (h.2.1 _ hmem).1 (by decide),
      fun hmem => absurd (h.2.1 _ hmem).1 (by decide)⟩
  · obtain ⟨body, hbody, rfl⟩ := h
    refine ⟨fun hmem => ?_, fun hmem => ?_⟩
    · have hmem : '\r' ∈ body := by simpa using hmem
      exact absurd (hbody _ hmem) (by decide)
    · have hmem : '\n' ∈ body := by simpa using hmem
      exact absurd (hbody _ hmem) (by decide)

/-- A string literal stays one, since line breaks are no double quotes. -/
theorem fits_quoted_unify_iff : Form.quoted.Fits (unifyNewlines text) ↔ Form.quoted.Fits text := by
  have hquote (body : List Char) : unifyNewlines (body ++ ['"']) = unifyNewlines body ++ ['"'] :=
    unify_append_of_head body (by decide)
  constructor
  · rintro ⟨body, hbody, heq⟩
    rw [List.cons_append] at heq
    obtain ⟨rest, rfl, hrest⟩ := exists_of_unify_cons heq (by decide)
    have hlast := last_unify rest
    rw [hrest, List.getLast?_concat] at hlast
    obtain ⟨c, hc, hquoted⟩ := Option.map_eq_some_iff.1 hlast.symm
    obtain rfl : c = '"' := by
      split at hquoted
      · cases hquoted
      · exact hquoted
    obtain ⟨inner, rfl⟩ := List.getLast?_eq_some_iff.1 hc
    rw [hquote, List.append_cancel_right_eq] at hrest
    refine ⟨inner, ?_, rfl⟩
    rwa [← hrest, mem_unify_iff (by decide) (by decide)] at hbody
  · rintro ⟨body, hbody, rfl⟩
    refine ⟨unifyNewlines body, ?_, congrArg ('"' :: ·) (hquote body)⟩
    rwa [mem_unify_iff (by decide) (by decide)]

/-- What a text looks like does not depend on how its line breaks are written. -/
theorem fits_unify_iff : form.Fits (unifyNewlines text) ↔ form.Fits text := by
  by_cases hreturn : '\r' ∈ text
  · have hfeed : '\n' ∈ unifyNewlines text := line_feed_mem_unify_iff.2 (.inl hreturn)
    cases form with
    | plain =>
        exact ⟨fun h => absurd hfeed (h.line_end_not_mem (.inl rfl)).2,
          fun h => absurd hreturn (h.line_end_not_mem (.inl rfl)).1⟩
    | comment =>
        exact ⟨fun h => absurd hfeed (h.line_end_not_mem (.inr rfl)).2,
          fun h => absurd hreturn (h.line_end_not_mem (.inr rfl)).1⟩
    | blank => exact and_congr (not_congr unify_eq_nil_iff) (forall_mem_unify_iff rfl rfl)
    | quoted => exact fits_quoted_unify_iff
  · rw [unify_of_not_mem hreturn]

/-- Unifying changes no word. -/
theorem unify_of_fits (h : form.Fits text) (hform : form = .plain ∨ form = .comment) :
    unifyNewlines text = text := unify_of_not_mem (h.line_end_not_mem hform).1

/-- What a text is does not depend on how its line breaks are written. -/
theorem category_unify (text : List Char) :
    Candidates.category? vocabulary (unifyNewlines text) =
      Candidates.category? vocabulary text := by
  refine Option.ext fun category => ?_
  by_cases hform : category.form = .plain
  · constructor
    · intro h
      have hfits := fits_of_category h
      rwa [unify_of_fits (fits_unify_iff.1 hfits) (.inl hform)] at h
    · intro h
      rwa [unify_of_fits (fits_of_category h) (.inl hform)]
  · exact ⟨fun h => category_of_fits hform (fits_unify_iff.1 (fits_of_category h)),
      fun h => category_of_fits hform (fits_unify_iff.2 (fits_of_category h))⟩

/-- A line break at the end is the same without its line feed. -/
theorem unify_line_feed (h : text.getLast? = some '\r') :
    unifyNewlines (text ++ ['\n']) = unifyNewlines text := by
  obtain ⟨front, rfl⟩ := List.getLast?_eq_some_iff.1 h
  rw [List.append_assoc, unify_append_of_head front (by simp),
    unify_append_of_head front (by simp)]
  rfl

theorem can_read_of_unify (hcut : text.getLast? ≠ some '\r')
    (h : Candidates.CanRead vocabulary (unifyNewlines text)) :
    Candidates.CanRead vocabulary text := by
  obtain ⟨more, category, hmore⟩ := Candidates.can_read_iff.1 h
  have hnot : '\r' ∉ unifyNewlines text := carriage_return_not_mem_unify_newlines text
  have hboth : unifyNewlines (unifyNewlines text ++ more) = unifyNewlines (text ++ more) := by
    rw [unify_append fun hend => hcut hend.1, unify_append, unify_of_not_mem hnot]
    exact fun hend => hnot (List.mem_of_getLast? hend.1)
  refine Candidates.can_read_iff.2 ⟨more, category, ?_⟩
  rw [← category_unify, ← hboth, category_unify, hmore]

/-- Whether rules can go on with a text does not depend on how its line breaks are written. -/
theorem can_read_unify : Candidates.CanRead vocabulary (unifyNewlines text) ↔
    Candidates.CanRead vocabulary text := by
  constructor
  · intro h
    by_cases hcut : text.getLast? = some '\r'
    · -- with its line feed the last line break is whole
      rw [← unify_line_feed hcut] at h
      exact Candidates.CanRead.of_append (can_read_of_unify (by simp) h)
    · exact can_read_of_unify hcut h
  · intro h
    obtain ⟨more, category, hmore⟩ := Candidates.can_read_iff.1 h
    obtain ⟨rest, hrest⟩ := exists_unify_append text more
    refine Candidates.can_read_iff.2 ⟨rest, category, ?_⟩
    rw [← hrest, category_unify, hmore]

/-- Where rules can go on with a carriage return, they can with its line feed. -/
theorem can_read_line_feed (h : Candidates.CanRead vocabulary text)
    (hcut : text.getLast? = some '\r') : Candidates.CanRead vocabulary (text ++ ['\n']) := by
  rwa [← can_read_unify, unify_line_feed hcut, can_read_unify]

/-- Only blanks end with a carriage return. -/
theorem Form.Fits.eq_blank (h : form.Fits text) (hlast : text.getLast? = some '\r') :
    form = .blank := by
  have hmem : '\r' ∈ text := List.mem_of_getLast? hlast
  cases form with
  | plain => exact absurd hmem (h.line_end_not_mem (.inl rfl)).1
  | comment => exact absurd hmem (h.line_end_not_mem (.inr rfl)).1
  | quoted =>
      obtain ⟨body, -, rfl⟩ := h
      rw [List.getLast?_concat] at hlast
      cases hlast
  | blank => rfl

/-- A piece that a rule reads does not end inside a line break. -/
theorem Candidates.Cuts.not_cut {category : Category}
    (h : Candidates.Cuts vocabulary category front rest) :
    ¬ (front.getLast? = some '\r' ∧ rest.head? = some '\n') := by
  rintro ⟨hlast, hhead⟩
  obtain ⟨back, rfl⟩ := List.head?_eq_some_iff.1 hhead
  have hfits := fits_of_category h.matched
  have hform := hfits.eq_blank hlast
  -- the rule for blanks goes on with the line feed
  have hlonger : category.form.Fits (front ++ ['\n']) := by
    rw [hform] at hfits ⊢
    exact ⟨by simp, List.forall_mem_append.2 ⟨hfits.2, List.forall_mem_singleton.2 rfl⟩⟩
  have hnone := h.longest ['\n'] (by simp) nofun
  rw [category_of_fits (hform ▸ nofun) hlonger] at hnone
  cases hnone

theorem Candidates.Cuts.unify_append {category : Category} {back : List Char}
    (h : Candidates.Cuts vocabulary category front rest) (hback : back <+: rest) :
    unifyNewlines (front ++ back) = unifyNewlines front ++ unifyNewlines back := by
  refine Little.unify_append fun hcut => h.not_cut ⟨hcut.1, ?_⟩
  obtain ⟨more, rfl⟩ := hback
  cases back with
  | nil => cases hcut.2
  | cons c back => exact hcut.2

/-- A longest match is one whichever way line breaks are written. -/
theorem Candidates.Cuts.unify {category : Category}
    (h : Candidates.Cuts vocabulary category front rest) :
    Candidates.Cuts vocabulary category (unifyNewlines front) (unifyNewlines rest) := by
  refine ⟨by rw [category_unify, h.matched], fun more hhead hne => ?_⟩
  obtain ⟨back, hback, rfl⟩ := exists_prefix_of_unify hhead
  rw [← h.unify_append hback, category_unify]
  exact h.longest back hback fun hnil => hne (unify_eq_nil_iff.2 hnil)

theorem unmatched_unify
    (h : ∀ front, front <+: text → Candidates.category? vocabulary front = none) :
    ∀ front, front <+: unifyNewlines text → Candidates.category? vocabulary front = none := by
  intro start hstart
  obtain ⟨front, hfront, rfl⟩ := exists_prefix_of_unify hstart
  rw [category_unify]
  exact h front hfront

end Reading

/-- Line breaks written as line feeds. -/
def unifiedNewlines (text : String) : String := String.ofList (unifyNewlines text.toList)

/-- Behind an unreadable stretch the rest says the same, with the second half of a line break or
without. -/
theorem exists_unify_cons (c : Char) (rest : List Char) : ∃ d back,
    unifyNewlines (c :: rest) = d :: unifyNewlines back ∧ unifyNewlines [c] = [d] ∧
      signals back = signals rest ∧ back.length ≤ rest.length := by
  by_cases hc : c = '\r'
  · subst hc
    by_cases hrest : ∃ back, rest = '\n' :: back
    · obtain ⟨back, rfl⟩ := hrest
      exact ⟨'\n', back, rfl, rfl, (signals_blank (by decide) back).symm, Nat.le_succ _⟩
    · rw [not_exists] at hrest
      exact ⟨'\n', rest, unifyNewlines.eq_3 rest hrest, rfl, rfl, Nat.le_refl _⟩
  · have hcons (back : List Char) : unifyNewlines (c :: back) = c :: unifyNewlines back :=
      unifyNewlines.eq_4 c back (fun _ hreturn _ => hc hreturn) hc
    exact ⟨c, rest, hcons rest, hcons [], rfl, Nat.le_refl _⟩

/-- What a rule has read says the same, but for line breaks in string literals. -/
theorem signal_unify {category : Category} {front : List Char}
    (h : Candidates.category? vocabulary front = some category) :
    (Piece.signal? ⟨some category, unifyNewlines front⟩).toList =
      (Piece.signal? ⟨some category, front⟩).toList.map (Signal.respell unifiedNewlines) := by
  cases category with
  | comment | blank => rfl
  | token kind =>
      show [Signal.token kind (unifyNewlines front)] = [Signal.token kind _]
      by_cases hkind : kind = .stringLiteral
      · rw [if_pos hkind, unifiedNewlines, String.toList_ofList, String.toList_ofList]
      · have hform : (Category.token kind).form = .plain := by
          cases kind with
          | stringLiteral => exact absurd rfl hkind
          | _ => rfl
        rw [if_neg hkind, unify_of_fits (fits_of_category h) (.inl hform)]

/-- An unreadable stretch stays one, up to the character that no rule can accept. What follows it
says the same, though a line feed may have gone from its head. -/
theorem exists_signals_of_stop {front rest : List Char} {c : Char}
    (hnone : ∀ start, start <+: front ++ c :: rest →
      Candidates.category? vocabulary start = none)
    (hread : Candidates.CanRead vocabulary front)
    (hstop : ¬ Candidates.CanRead vocabulary (front ++ [c])) :
    ∃ back, signals (unifyNewlines (front ++ c :: rest)) =
        .unreadable :: signals (unifyNewlines back) ∧
      signals back = signals rest ∧ back.length ≤ rest.length := by
  -- the stretch does not end inside a line break that it begins
  have hwhole : ¬ (front.getLast? = some '\r' ∧ some c = some '\n') := by
    rintro ⟨hlast, hc⟩
    rw [Option.some.inj hc] at hstop
    exact hstop (can_read_line_feed hread hlast)
  obtain ⟨d, back, hcons, hd, hsignals, hle⟩ := exists_unify_cons c rest
  have hunify : unifyNewlines (front ++ c :: rest) =
      unifyNewlines front ++ d :: unifyNewlines back := by
    rw [unify_append hwhole, hcons]
  have hnone' := unmatched_unify hnone
  rw [hunify] at hnone'
  rw [← can_read_unify, unify_append hwhole, hd] at hstop
  exact ⟨back, by rw [hunify, signals_of_stop hnone' (can_read_unify.2 hread) hstop], hsignals, hle⟩

/-- A text says the same, but for line breaks in string literals, whichever way its line breaks are
written. -/
theorem signals_unify (text : List Char) :
    signals (unifyNewlines text) = (signals text).map (Signal.respell unifiedNewlines) := by
  induction hlength : text.length using Nat.strongRecOn generalizing text with
  | ind length ih =>
      by_cases hne : text = []
      · rw [hne]
        rfl
      cases hlongest : Candidates.longest vocabulary text with
      | some found =>
          obtain ⟨category, front, rest⟩ := found
          obtain ⟨rfl, hcuts⟩ := Candidates.longest_eq_some_iff.1 hlongest
          have hpos := List.length_pos_iff.2 (fits_of_category hcuts.matched).ne_nil
          rw [List.length_append] at hlength
          rw [hcuts.unify_append (List.prefix_refl rest), signals_of_cuts hcuts.unify,
            signals_of_cuts hcuts, List.map_append, signal_unify hcuts.matched,
            ih rest.length (by omega) rest rfl]
      | none =>
          have hnone := Candidates.longest_eq_none_iff.1 hlongest
          rcases Candidates.can_read_or_stop can_read_nil text with
            hread | ⟨front, c, rest, rfl, hread, hstop⟩
          · rw [signals_of_can_read hne hnone hread, signals_of_can_read
              (fun hnil => hne (unify_eq_nil_iff.1 hnil)) (unmatched_unify hnone)
              (can_read_unify.2 hread)]
            rfl
          · obtain ⟨back, hback, hsignals, hle⟩ := exists_signals_of_stop hnone hread hstop
            rw [List.length_append, List.length_cons] at hlength
            rw [hback, ih back.length (by omega) back rfl, hsignals,
              signals_of_stop hnone hread hstop]
            rfl

end Little
