import Little.Proofs.Scope.Balance
import Little.Proofs.Scope.Functions

/-!
# What can go wrong on a walk of a parsed tree

`walk_parsed_safe` says for every text, with or without diagnostics, how a walk of its tree can end.
It never closes a scope where none is open, but for the tree of a single body, which always does so
in the end. It fails for a name that is taken or for a part that a node lacks, and it leaves open
the scopes of the functions that lack their body. `Tree.Lacks` says which nodes cannot be entered:
none in a derivation tree (`Tree.IsTreeOf.not_lacks`), and in the tree of a program only
declarations of strings without their value (`Tree.IsAttempt.value_eq_none`).
-/

namespace Little

/-- Whether a node lacks a part without which it cannot be entered. -/
def Tree.Lacks (tree : Tree) : Prop :=
  (tree.rule? = some .function ∧ tree.childOf? .ident = none) ∨ none ∈ tree.declarations

namespace Builder

variable {builder : Builder}

/-- A walk that halts has carried out all events before the one it halts at. -/
theorem exists_of_walk_halt {events : List Event} {halt : Halt}
    (h : (builder.walk events).halt = some halt) :
    ∃ before event after, events = before ++ event :: after ∧
      (builder.walk before).halt = none ∧
      ((builder.walk before).builder.step event).halt = some halt := by
  induction events generalizing builder with
  | nil => cases h
  | cons event events ih =>
      rw [walk, Outcome.andThen] at h
      cases hstep : (builder.step event).halt with
      | some other =>
          rw [hstep] at h
          exact ⟨[], event, events, rfl, rfl, h⟩
      | none =>
          rw [hstep] at h
          obtain ⟨before, last, after, rfl, hbefore, hlast⟩ := ih h
          have hwalk : builder.walk (event :: before) =
              (builder.step event).builder.walk before := by
            rw [walk, Outcome.andThen, hstep]
          exact ⟨event :: before, last, after, rfl, hwalk ▸ hbefore, hwalk ▸ hlast⟩

theorem none_mem_of_declare_all {declarations : List (Option Declaration)}
    (h : (builder.declareAll declarations).halt = some .missingPart) : none ∈ declarations := by
  induction declarations generalizing builder with
  | nil => cases h
  | cons declaration rest ih =>
      cases declaration with
      | none => exact List.mem_cons_self
      | some declaration =>
          refine List.mem_cons_of_mem _ ?_
          have hdeclares := builder.declares declaration.symbol declaration.place
          rw [declareAll] at h
          generalize builder.declare declaration.symbol declaration.place = outcome
            at hdeclares h
          cases hdeclares with
          | declared => exact ih h
          | taken => cases h

/-- Only entering a node fails for want of a part, and only for one that the node lacks. -/
theorem lacks_of_step {event : Event} (h : (builder.step event).halt = some .missingPart) :
    ∃ node, event = .enter node ∧ node.tree.Lacks := by
  cases event with
  | enter node =>
      refine ⟨node, rfl, ?_⟩
      change (builder.enter node).halt = _ at h
      unfold Builder.enter at h
      split at h
      · cases h
      · split at h
        · next hrule =>
          split at h
          · cases h
          · next hident => exact .inl ⟨hrule, hident⟩
        · exact .inr (none_mem_of_declare_all h)
  | exit node =>
      change (builder.exit node).halt = _ at h
      unfold Builder.exit at h
      split at h
      · have hcloses := builder.closes
        generalize builder.close = outcome at hcloses h
        cases hcloses with
        | noOpenScope | kept | dropped | unlisted => cases h
      · cases h
  | leaf => cases h

/-- A walk of a tree fails for want of a part only where it enters a node that lacks one. -/
theorem exists_of_missing_part {above : List Rule} {tree : Tree}
    (h : (builder.walk (tree.walk above)).halt = some .missingPart) :
    ∃ before node after, tree.walk above = before ++ .enter node :: after ∧
      (builder.walk before).halt = none ∧
      ((builder.walk before).builder.enter node).halt = some .missingPart ∧
      node ∈ tree.occurrences above ∧ node.tree.Lacks := by
  obtain ⟨before, event, after, hevents, hbefore, hstep⟩ := exists_of_walk_halt h
  obtain ⟨node, rfl, hlacks⟩ := lacks_of_step hstep
  have hmem : Event.enter node ∈ tree.walk above :=
    hevents ▸ List.mem_append_right _ List.mem_cons_self
  exact ⟨before, node, after, hevents, hbefore, hstep, Tree.mem_of_enter hmem, hlacks⟩

/-- A walk fails for what is declared or for what is closed. -/
theorem halt_of_walk {events : List Event} {halt : Halt}
    (h : (start.walk events).halt = some halt) : halt.OfDeclaration ∨ halt = .noOpenScope :=
  (consistent_preserved.walk events consistent_start).halt halt h

end Builder

theorem Tree.IsTreeOf.rule_eq {tree : Tree} {name : Rule} (h : tree.IsTreeOf name) :
    tree.rule? = some name := by
  obtain ⟨_, _, _, rfl, -⟩ := is_tree_of_iff.1 h
  rfl

namespace FunctionParts

variable (parts : FunctionParts)

theorem child_of_ident : parts.tree.childOf? .ident = some parts.ident := by
  obtain ⟨_, _, _, htype, -⟩ := Tree.is_tree_of_iff.1 parts.htype
  obtain ⟨_, _, _, hident, -⟩ := Tree.is_tree_of_iff.1 parts.hident
  rw [tree, htype, hident]
  rfl

theorem child_of_body : parts.tree.childOf? .functionBody = some parts.body.tree := by
  obtain ⟨_, _, _, htype, -⟩ := Tree.is_tree_of_iff.1 parts.htype
  obtain ⟨_, _, _, hident, -⟩ := Tree.is_tree_of_iff.1 parts.hident
  obtain ⟨_, _, _, hparams, -⟩ := Tree.is_tree_of_iff.1 parts.hparams
  rw [tree, htype, hident, hparams]
  rfl

end FunctionParts

namespace Tree

/-- A derivation tree lacks nothing. -/
theorem IsTreeOf.not_lacks {tree : Tree} {name : Rule} (h : tree.IsTreeOf name) :
    ¬ tree.Lacks := by
  intro hlacks
  rcases hlacks with ⟨hrule, hident⟩ | hnone
  · obtain rfl : name = .function := Option.some.inj (h.rule_eq.symm.trans hrule)
    obtain ⟨parts, rfl⟩ := FunctionParts.exists_of_tree h
    rw [parts.child_of_ident] at hident
    cases hident
  · have hitems : ∀ items : List Item, none ∉ items.map (some ·.declaration) := by simp
    cases name with
    | stringDecl => exact hitems _ (h.declarations_string_decl ▸ hnone)
    | varDecl => exact hitems _ (h.declarations_var_decl ▸ hnone)
    | paramList => exact hitems _ (h.declarations_params ▸ hnone)
    | _ =>
        obtain ⟨_, _, _, rfl, -⟩ := is_tree_of_iff.1 h
        exact absurd hnone List.not_mem_nil

section Broken

variable {tree : Tree}

/-- What is made of two parts is missing only if one of them is. -/
theorem none_or_none_of_bind {α β γ : Type} {first : Option α} {second : Option β}
    {make : α → β → γ} (h : (do return make (← first) (← second)) = none) :
    first = none ∨ second = none := by
  cases first with
  | none => exact .inl rfl
  | some a =>
      cases second with
      | none => exact .inr rfl
      | some b => cases h

/-- The parameters in a list of parameters are whole, however broken the list is. -/
theorem IsAttempt.params {certain : Bool} (h : tree.IsAttempt certain .paramList) :
    none ∉ (tree.childrenOf .param).map paramDeclaration := by
  obtain ⟨_, _, _, children, passed, rfl, hbody, hpassed⟩ := h
  intro hnone
  obtain ⟨param, hparam, hdeclaration⟩ := List.mem_map.1 hnone
  obtain ⟨hmem, hrule⟩ := List.mem_filter.1 hparam
  rw [beq_iff_eq] at hrule
  rcases List.mem_append.1 hmem with hmem | hmem
  · have hfree : ∀ (certain : Bool) (rule : Rule), ∀ name ∈ rule.body.uncertain certain, True :=
      fun _ _ _ _ => trivial
    obtain ⟨certain, -, hattempt⟩ :=
      hbody.of_node hfree (fun _ _ => trivial) (mem_occurrences_all [] hmem) hrule
    rcases none_or_none_of_bind hdeclaration with hident | htype
    · exact hattempt.child_of_ne_none (by cases certain <;> decide) hident
    · exact hattempt.child_of_ne_none (by cases certain <;> decide) htype
  · rw [rule_of_leaf (hpassed param hmem)] at hrule
    cases hrule

/-- What is certainly a declaration of a string lacks nothing but its value, and no other node
lacks anything. -/
theorem IsAttempt.value_eq_none {certain : Bool} {name : Rule} (h : tree.IsAttempt certain name)
    (hcertain : certain = true ∨ name ≠ .stringDecl ∧ name ≠ .function) (hlacks : tree.Lacks) :
    tree.rule? = some .stringDecl ∧ tree.childOf? .stringValue = none := by
  have hrule : tree.rule? = some name := by
    obtain ⟨_, _, _, _, _, rfl, -⟩ := h
    rfl
  rcases hlacks with ⟨hfunction, hident⟩ | hnone
  · obtain rfl : name = .function := Option.some.inj (hrule.symm.trans hfunction)
    obtain rfl := hcertain.resolve_right fun hfree => hfree.2 rfl
    exact absurd hident (h.child_of_ne_none (by decide))
  · unfold declarations at hnone
    rw [hrule] at hnone
    cases name with
    | stringDecl =>
        obtain rfl := hcertain.resolve_right fun hfree => hfree.1 rfl
        rcases none_or_none_of_bind (List.mem_singleton.1 hnone).symm with hident | hvalue
        · exact absurd hident (h.child_of_ne_none (by decide))
        · exact ⟨hrule, hvalue⟩
    | varDecl =>
        dsimp only at hnone
        split at hnone
        · simp at hnone
        · next hdeclarations =>
          rcases none_or_none_of_bind hdeclarations with htype | hlist
          · exact absurd htype (h.child_of_ne_none (by cases certain <;> decide))
          · exact absurd hlist (h.child_of_ne_none (by cases certain <;> decide))
    | paramList => exact absurd hnone h.params
    | _ => exact absurd hnone List.not_mem_nil

theorem Lacks.exists_rule (h : tree.Lacks) : ∃ name, tree.rule? = some name := by
  cases tree with
  | node name => exact ⟨name, rfl⟩
  | leaf | skipped | missing =>
      rcases h with ⟨hrule, -⟩ | hnone
      · exact ⟨_, hrule⟩
      · exact absurd hnone List.not_mem_nil

end Broken

end Tree

namespace Parse

/-- What a walk of the whole tree leads to. -/
def walked (parse : Parse) : Outcome := Builder.start.walk parse.tree.events

variable {entry : Rule} {source : String}

/-- Without diagnostics all nodes are derivation trees. -/
theorem is_tree_of_node (h : (ofSource entry source).diagnostics = []) {node : Occurrence}
    {name : Rule} (hmem : node ∈ (ofSource entry source).tree.occurrences [])
    (hname : node.tree.rule? = some name) : node.tree.IsTreeOf name := by
  obtain ⟨tokens, hderives⟩ : ∃ tokens, (ofSource entry source).tree.IsDerivation entry tokens := by
    by_cases hentry : entry = .program
    · subst hentry
      exact ⟨_, (program_derives h).2⟩
    · obtain ⟨front, _, -, hderives⟩ := entry_derives hentry h
      exact ⟨front, hderives⟩
  rw [← Tree.occurrences_all_singleton] at hmem
  obtain ⟨part, -, hnode⟩ := hderives.of_node hmem hname
  exact hnode.is_tree_of

/-- Without diagnostics no part is missing. -/
theorem walked_ne_missing_part (h : (ofSource entry source).diagnostics = []) :
    (ofSource entry source).walked.halt ≠ some .missingPart := by
  intro hmissing
  obtain ⟨_, node, _, -, -, -, hmem, hlacks⟩ := Builder.exists_of_missing_part hmissing
  obtain ⟨name, hname⟩ := hlacks.exists_rule
  exact (is_tree_of_node h hmem hname).not_lacks hlacks

/-- In a program only the values of strings can be missing. -/
theorem exists_of_program_missing_part
    (h : (ofSource .program source).walked.halt = some .missingPart) :
    ∃ before node after,
      (ofSource .program source).tree.events = before ++ .enter node :: after ∧
      (Builder.start.walk before).halt = none ∧
      ((Builder.start.walk before).builder.enter node).halt = some .missingPart ∧
      node.tree.rule? = some .stringDecl ∧ node.tree.childOf? .stringValue = none := by
  obtain ⟨before, node, after, hevents, hbefore, henter, hmem, hlacks⟩ :=
    Builder.exists_of_missing_part h
  refine ⟨before, node, after, hevents, hbefore, henter, ?_⟩
  obtain ⟨name, hname⟩ := hlacks.exists_rule
  rw [← Tree.occurrences_all_singleton] at hmem
  obtain ⟨certain, hcertain, hattempt⟩ :=
    (attempt_of_source .program source).of_node (fun _ _ _ => Rule.certain_of_uncertain)
      (List.forall_mem_singleton.2 (by decide)) hmem hname
  exact hattempt.value_eq_none hcertain hlacks

/-- A text that is not read as a body opens the scopes of its functions, and never closes a scope
where none is open. -/
theorem walked_opens (source : String) (hentry : entry ≠ .functionBody) :
    Builder.start.Opens (Tree.nodesOf .function [] [(ofSource entry source).tree])
      (ofSource entry source).walked := by
  have hopens := (attempt_of_source entry source).opens (bne_iff_ne.2 hentry) [] Builder.start
  rwa [Tree.walkAll, Tree.walkAll, List.append_nil] at hopens

/-- Without a body no walk fails for any reason but what is declared. -/
theorem of_declaration_of_walked (hentry : entry ≠ .functionBody) {halt : Halt}
    (h : (ofSource entry source).walked.halt = some halt) : halt.OfDeclaration :=
  (Builder.halt_of_walk h).resolve_right fun hopen =>
    (walked_opens source hentry).halt (hopen ▸ h)

/-- The scopes that stay open are those of the functions that lack their body. -/
theorem walked_unclosed (hentry : entry ≠ .functionBody)
    (hdone : (ofSource entry source).walked.halt = none) :
    (ofSource entry source).walked.builder.table.functions.map (some ·.1) =
        (Tree.nodesOf .function [] [(ofSource entry source).tree]).map
          (fun node => (node.tree.childOf? .ident).map Tree.text) ∧
      (ofSource entry source).walked.builder.opened.reverse =
        unclosed (Tree.nodesOf .function [] [(ofSource entry source).tree])
          (ofSource entry source).walked.builder.table.functions := by
  obtain ⟨scopes, hfunctions, hnames, hopened⟩ := (walked_opens source hentry).done hdone
  have hscopes : (ofSource entry source).walked.builder.table.functions = scopes := hfunctions
  rw [hscopes]
  exact ⟨hnames, hopened⟩

/-- Without diagnostics no scope stays open, and declarations go to the global scope again. -/
theorem walked_closes (hentry : entry ≠ .functionBody)
    (h : (ofSource entry source).diagnostics = [])
    (hdone : (ofSource entry source).walked.halt = none) :
    (ofSource entry source).walked.builder.opened = [] ∧
      (ofSource entry source).walked.builder.current = Builder.globalScope := by
  have hconsistent := Builder.consistent_preserved.walk (ofSource entry source).tree.events
    Builder.consistent_start
  have hopened : (ofSource entry source).walked.builder.opened = [] := by
    rw [← List.reverse_eq_nil_iff, (walked_unclosed hentry hdone).2, unclosed,
      List.map_eq_nil_iff, List.filter_eq_nil_iff]
    rintro ⟨node, scope⟩ hzip
    obtain ⟨hnode, -⟩ := List.of_mem_zip hzip
    obtain ⟨hmem, hrule⟩ := List.mem_filter.1 hnode
    rw [Tree.occurrences_all_singleton] at hmem
    obtain ⟨parts, hparts⟩ := FunctionParts.exists_of_tree
      (is_tree_of_node h hmem (beq_iff_eq.1 hrule))
    simp [hparts, parts.child_of_body]
  refine ⟨hopened, hconsistent.builder.current.resolve_right fun hhead => ?_⟩
  change (ofSource entry source).walked.builder.opened.head? = _ at hhead
  rw [hopened] at hhead
  cases hhead

/-- The end of a body that stands in no function closes a scope where none is open. -/
theorem walked_body (source : String) :
    ∃ front, (ofSource .functionBody source).tree.events =
        front ++ [.exit ⟨[], (ofSource .functionBody source).tree⟩] ∧
      ((∃ halt : Halt, halt.OfDeclaration ∧ (Builder.start.walk front).halt = some halt ∧
          (ofSource .functionBody source).walked.halt = some halt) ∨
        (Builder.start.walk front).halt = none ∧
          (ofSource .functionBody source).walked.halt = some .noOpenScope) := by
  obtain ⟨_, start, stop, children, passed, htree, hbody, hpassed⟩ :=
    (attempt_of_source .functionBody source).is_attempt
  unfold walked
  rw [htree]
  generalize hroot : Occurrence.mk [] (.node .functionBody start stop (children ++ passed)) = root
  let front : List Event :=
    .enter root :: Tree.walkAll [.functionBody] (children ++ passed)
  have hevents : (Tree.node .functionBody start stop (children ++ passed)).events =
      front ++ [.exit root] := by
    subst hroot
    rfl
  have hfront : Builder.start.Pops 0 (Builder.start.walk front) := by
    subst hroot
    show Builder.start.Pops 0
      (Builder.start.walk (Tree.walkAll [.functionBody] (children ++ passed)))
    rw [Builder.walk_passed _ hpassed]
    exact hbody.pops (by decide) (by decide) (by decide) _ _
  refine ⟨front, hevents, ?_⟩
  rw [hevents, Builder.walk_append, Outcome.andThen]
  cases hhalt : (Builder.start.walk front).halt with
  | some halt =>
      have hne := hfront.halt (Nat.zero_le _)
      refine .inl ⟨halt, (Builder.halt_of_walk hhalt).resolve_right fun hopen => ?_, rfl, hhalt⟩
      exact hne (hopen ▸ hhalt)
  | none =>
      have hopened : (Builder.start.walk front).builder.opened = [] := hfront.opened hhalt
      have hexit : (Builder.start.walk front).builder.walk [.exit root] =
          (Builder.start.walk front).builder.close.andThen .done := by
        subst hroot
        rfl
      refine .inr ⟨rfl, ?_⟩
      show ((Builder.start.walk front).builder.walk [.exit root]).halt = _
      rw [hexit, Outcome.and_then_done, Builder.close, hopened]

end Parse

/-- However broken a text is, a walk of its tree closes no scope where none is open, and fails only
for a name that is taken or a part that is not there: in a program only for the value of a string,
and without diagnostics for no part at all. What stays open in the end are the scopes of the
functions that lack their body, so nothing without diagnostics. The tree of a single body is the
exception: its walk always fails, at its end if not before. -/
theorem walk_parsed_safe (source : String) :
    (∀ entry : Rule, entry ≠ .functionBody →
      (∀ halt, (Parse.ofSource entry source).walked.halt = some halt → halt.OfDeclaration) ∧
      ((Parse.ofSource entry source).diagnostics = [] →
        (Parse.ofSource entry source).walked.halt ≠ some .missingPart) ∧
      ((Parse.ofSource entry source).walked.halt = none →
        (Parse.ofSource entry source).walked.builder.table.functions.map (some ·.1) =
            (Tree.nodesOf .function [] [(Parse.ofSource entry source).tree]).map
              (fun node => (node.tree.childOf? .ident).map Tree.text) ∧
        (Parse.ofSource entry source).walked.builder.opened.reverse =
            unclosed (Tree.nodesOf .function [] [(Parse.ofSource entry source).tree])
              (Parse.ofSource entry source).walked.builder.table.functions ∧
        ((Parse.ofSource entry source).diagnostics = [] →
          (Parse.ofSource entry source).walked.builder.opened = [] ∧
            (Parse.ofSource entry source).walked.builder.current = Builder.globalScope))) ∧
    ((Parse.ofSource .program source).walked.halt = some .missingPart →
      ∃ before node after,
        (Parse.ofSource .program source).tree.events = before ++ .enter node :: after ∧
        (Builder.start.walk before).halt = none ∧
        ((Builder.start.walk before).builder.enter node).halt = some .missingPart ∧
        node.tree.rule? = some .stringDecl ∧ node.tree.childOf? .stringValue = none) ∧
    ∃ front, (Parse.ofSource .functionBody source).tree.events =
        front ++ [.exit ⟨[], (Parse.ofSource .functionBody source).tree⟩] ∧
      ((∃ halt : Halt, halt.OfDeclaration ∧ (Builder.start.walk front).halt = some halt ∧
          (Parse.ofSource .functionBody source).walked.halt = some halt) ∨
        (Builder.start.walk front).halt = none ∧
          (Parse.ofSource .functionBody source).walked.halt = some .noOpenScope) := by
  refine ⟨fun entry hentry => ⟨fun _ => Parse.of_declaration_of_walked hentry,
    Parse.walked_ne_missing_part, fun hdone => ?_⟩, Parse.exists_of_program_missing_part,
    Parse.walked_body source⟩
  obtain ⟨hnames, hopened⟩ := Parse.walked_unclosed hentry hdone
  exact ⟨hnames, hopened, fun hclean => Parse.walked_closes hentry hclean hdone⟩

end Little
