import Mathlib.Data.List.Forall2
import Little.Proofs.Scope.Consistency

/-!
# What a declaration leaves behind

A node that declares several names declares them one after the other. Where one of them is taken,
those before it are in the scope already. `Builder.Gains` says what a scope gains and that nothing
else changes, `Scope.Admits` which declarations a scope can take, and `Builder.exists_gains` puts
the two together: whatever is to be declared, the current scope gains the longest part in front
that it admits. `enter_gains_admitted` says this of every node that declares something and of every
builder that can be reached, and also that closing without an open scope changes nothing.
-/

namespace Little

/-- A node that has all the parts its declarations are read from, with the declarations in order. -/
inductive Tree.Declares : Tree → List Declaration → Prop where
  | varDecl {tree type list : Tree} :
      tree.rule? = some .varDecl → tree.childOf? .varType = some type →
      tree.childOf? .identList = some list →
      Declares tree ((list.childrenOf .ident).map fun ident =>
        ⟨⟨ident.text, type.text, none⟩, ident.location⟩)
  | paramList {tree : Tree} {declarations : List Declaration} :
      tree.rule? = some .paramList →
      List.Forall₂ (fun param declaration => ∃ ident type, param.childOf? .ident = some ident ∧
          param.childOf? .varType = some type ∧
          declaration = ⟨⟨ident.text, type.text, none⟩, param.location⟩)
        (tree.childrenOf .param) declarations →
      Declares tree declarations
  | stringDecl {tree ident value : Tree} :
      tree.rule? = some .stringDecl → tree.childOf? .ident = some ident →
      tree.childOf? .stringValue = some value →
      Declares tree [⟨⟨ident.text, "STRING", some value.text⟩, ident.location⟩]

namespace Tree.Declares

variable {tree : Tree} {declarations : List Declaration}

theorem map_param_declaration {params : List Tree}
    (h : List.Forall₂ (fun param declaration => ∃ ident type, param.childOf? .ident = some ident ∧
        param.childOf? .varType = some type ∧
        declaration = ⟨⟨ident.text, type.text, none⟩, param.location⟩) params declarations) :
    params.map paramDeclaration = declarations.map some := by
  induction h with
  | nil => rfl
  | @cons param declaration params declarations hparam _ ih =>
      obtain ⟨ident, type, hident, htype, rfl⟩ := hparam
      have hfirst : param.paramDeclaration =
          some ⟨⟨ident.text, type.text, none⟩, param.location⟩ := by
        simp [paramDeclaration, hident, htype]
      rw [List.map_cons, List.map_cons, hfirst, ih]

theorem declarations_eq (h : tree.Declares declarations) :
    tree.declarations = declarations.map some := by
  cases h with
  | varDecl hrule htype hlist =>
      simp [Tree.declarations, hrule, varDeclarations, htype, hlist]
  | paramList hrule hparams =>
      simp only [Tree.declarations, hrule]
      exact map_param_declaration hparams
  | stringDecl hrule hident hvalue =>
      simp [Tree.declarations, hrule, stringDeclaration, hident, hvalue]

/-- Entering such a node is nothing but declaring. -/
theorem enter_eq {node : Occurrence} (h : node.tree.Declares declarations) (builder : Builder) :
    builder.enter node = builder.declareAll (declarations.map some) := by
  have hrule : node.tree.rule? = some .varDecl ∨ node.tree.rule? = some .paramList ∨
      node.tree.rule? = some .stringDecl := by
    cases h with
    | varDecl hrule => exact .inl hrule
    | paramList hrule => exact .inr (.inl hrule)
    | stringDecl hrule => exact .inr (.inr hrule)
  rw [Builder.enter, h.declarations_eq]
  rcases hrule with hrule | hrule | hrule <;> simp [Occurrence.hasBlock, hrule, Rule.isControl]

end Tree.Declares

/-- The names are free in the scope, and none of them comes twice. -/
structure Scope.Admits (scope : Scope) (declarations : List Declaration) : Prop where
  free : ∀ declaration ∈ declarations, declaration.symbol.name ∉ scope.symbols.map (·.name)
  nodup : (declarations.map (·.symbol.name)).Nodup

namespace Builder

/-- A builder that some operations lead to, those that halt included. -/
def Reachable (builder : Builder) : Prop := ∃ operations, builder = start.performAll operations

/-- `builder.Gains symbols next` says that the current scope has these symbols more, behind those it
had, and that all else that can be seen of the builder is as it was. -/
structure Gains (builder : Builder) (symbols : List Symbol) (next : Builder) : Prop where
  scope : ∀ scope, builder.table.scope? builder.current = some scope →
    next.table.scope? builder.current = some { scope with symbols := scope.symbols ++ symbols }
  others : ∀ handle, handle ≠ builder.current →
    next.table.scope? handle = builder.table.scope? handle
  order : next.table.order = builder.table.order
  current : next.current = builder.current
  opened : next.opened = builder.opened
  nextBlock : next.nextBlock = builder.nextBlock

theorem Gains.note (builder : Builder) (notice : Notice) : builder.Gains [] (builder.note notice) where
  scope scope hscope := by simpa [Builder.note] using hscope
  others _ _ := rfl
  order := rfl
  current := rfl
  opened := rfl
  nextBlock := rfl

theorem Gains.trans {builder middle next : Builder} {symbols more : List Symbol}
    (h : builder.Gains symbols middle) (hmore : middle.Gains more next) :
    builder.Gains (symbols ++ more) next where
  scope scope hscope := by
    have hlast := hmore.scope _ (h.current.symm ▸ h.scope scope hscope)
    rw [h.current] at hlast
    rw [hlast, List.append_assoc]
  others handle hne :=
    (hmore.others handle (h.current.symm ▸ hne)).trans (h.others handle hne)
  order := hmore.order.trans h.order
  current := hmore.current.trans h.current
  opened := hmore.opened.trans h.opened
  nextBlock := hmore.nextBlock.trans h.nextBlock

section Declaring

variable {builder : Builder} {scope : Scope}

/-- A name that is free is declared. -/
theorem declare_of_free (hscope : builder.table.scope? builder.current = some scope)
    {symbol : Symbol} (hfree : symbol.name ∉ scope.symbols.map (·.name)) (place : Location) :
    ∃ next, builder.declare symbol place = .done next ∧ builder.Gains [symbol] next := by
  have hdefine : builder.table.define builder.current symbol place =
      .ok { builder.table with
        scopes := builder.table.scopes.set builder.current
          { scope with symbols := scope.symbols ++ [symbol] } } := by
    simp only [SymbolTable.define, hscope, Scope.define, Scope.lookup_eq_none_iff.2 hfree]
    rfl
  have hlt := SymbolTable.lt_of_scope hscope
  rw [declare, hdefine]
  refine ⟨_, rfl, ?_, fun handle hne => ?_, rfl, rfl, rfl, rfl⟩
  · intro other hother
    obtain rfl := Option.some.inj (hscope.symm.trans hother)
    exact List.getElem?_set_self hlt
  · exact List.getElem?_set_ne hne.symm

/-- A name that is taken changes nothing. -/
theorem declare_of_taken (hscope : builder.table.scope? builder.current = some scope)
    {symbol : Symbol} (htaken : symbol.name ∈ scope.symbols.map (·.name)) (place : Location) :
    ∃ next, builder.declare symbol place =
        ⟨next, some (.semantic (.duplicate symbol.name place))⟩ ∧
      builder.Gains [] next := by
  obtain ⟨found, hlookup⟩ : ∃ found, scope.lookup symbol.name = some found := by
    rw [← Option.ne_none_iff_exists']
    exact fun hnone => Scope.lookup_eq_none_iff.1 hnone htaken
  have hdefine : builder.table.define builder.current symbol place =
      .error (.duplicate symbol.name place) := by
    simp only [SymbolTable.define, hscope, Scope.define, hlookup]
    rfl
  rw [declare, hdefine]
  exact ⟨_, rfl, .note builder _⟩

/-- Of what is to be declared the current scope gains all, or what stands in front of the first
name that is taken by then. -/
theorem exists_gains (hscope : builder.table.scope? builder.current = some scope)
    (declarations : List Declaration) :
    ∃ front next, scope.Admits front ∧ builder.Gains (front.map (·.symbol)) next ∧
      (front = declarations ∧ builder.declareAll (declarations.map some) = .done next ∨
        ∃ clash back, declarations = front ++ clash :: back ∧
          (clash.symbol.name ∈ scope.symbols.map (·.name) ∨
            clash.symbol.name ∈ front.map (·.symbol.name)) ∧
          builder.declareAll (declarations.map some) =
            ⟨next, some (.semantic (.duplicate clash.symbol.name clash.place))⟩) := by
  induction declarations generalizing builder scope with
  | nil =>
      exact ⟨[], builder, ⟨nofun, List.nodup_nil⟩,
        ⟨by simp, fun _ _ => rfl, rfl, rfl, rfl, rfl⟩, .inl ⟨rfl, rfl⟩⟩
  | cons declaration rest ih =>
      by_cases htaken : declaration.symbol.name ∈ scope.symbols.map (·.name)
      · obtain ⟨next, hdeclare, hgains⟩ := declare_of_taken hscope htaken declaration.place
        refine ⟨[], next, ⟨nofun, List.nodup_nil⟩, hgains,
          .inr ⟨declaration, rest, rfl, .inl htaken, ?_⟩⟩
        rw [List.map_cons, declareAll, hdeclare]
        rfl
      · obtain ⟨middle, hdeclare, hgains⟩ := declare_of_free hscope htaken declaration.place
        have hmiddle := hgains.scope scope hscope
        rw [← hgains.current] at hmiddle
        -- behind the first name the scope has that name too
        obtain ⟨front, next, hadmits, hmore, hrest⟩ := ih hmiddle
        have hfree : ∀ other ∈ front, other.symbol.name ∉ scope.symbols.map (·.name) ∧
            other.symbol.name ≠ declaration.symbol.name := by
          intro other hother
          simpa using hadmits.free other hother
        refine ⟨declaration :: front, next, ⟨?_, ?_⟩, hgains.trans hmore, ?_⟩
        · exact List.forall_mem_cons.2 ⟨htaken, fun other hother => (hfree other hother).1⟩
        · refine List.nodup_cons.2 ⟨fun hmem => ?_, hadmits.nodup⟩
          obtain ⟨other, hother, heq⟩ := List.mem_map.1 hmem
          exact (hfree other hother).2 heq
        · rw [List.map_cons, declareAll, hdeclare, Outcome.done_and_then]
          rcases hrest with ⟨rfl, hdone⟩ | ⟨clash, back, rfl, hclash, hhalt⟩
          · exact .inl ⟨rfl, hdone⟩
          · refine .inr ⟨clash, back, rfl, ?_, hhalt⟩
            simpa [or_assoc, or_comm, or_left_comm] using hclash

end Declaring

/-- Declarations of a builder that can be reached go to a scope that is there. -/
theorem Consistent.exists_current {builder : Builder} (h : builder.Consistent) :
    ∃ scope, builder.table.scope? builder.current = some scope := by
  have hmem : builder.current ∈ builder.table.order := by
    rcases h.current with hglobal | hopened
    · exact hglobal ▸ List.mem_of_mem_head? h.first
    · exact h.mem_of_opened (List.mem_of_mem_head? hopened)
  exact ⟨_, List.getElem?_eq_getElem (h.listed _ hmem)⟩

/-- Leaving a node halts only where no scope is open, and then nothing has changed. -/
theorem Consistent.exit_of_halt {builder : Builder} (h : builder.Consistent) {node : Occurrence}
    {halt : Halt} (hhalt : (builder.exit node).halt = some halt) :
    builder.opened = [] ∧ builder.exit node = ⟨builder, some .noOpenScope⟩ := by
  unfold exit at hhalt ⊢
  split at hhalt
  · next hcloses =>
    rw [if_pos hcloses]
    have hclose := builder.closes
    generalize builder.close = outcome at hclose hhalt ⊢
    cases hclose with
    | noOpenScope hopened => exact ⟨hopened, rfl⟩
    | kept | dropped => cases hhalt
    | unlisted hopened hmem =>
        exact absurd (h.mem_of_opened (hopened ▸ List.mem_cons_self)) hmem
  · cases hhalt

/-- Entering a node that declares names, with all its parts there, adds exactly its symbols to the
current scope, in order, if their names are free and none comes twice. Otherwise it halts at the
first name that is taken, in the scope or by the node itself, and leaves the symbols before it.
Nothing else changes either way. Leaving a node halts only where no scope is open, and changes
nothing then. -/
theorem enter_gains_admitted {builder : Builder} (hreachable : builder.Reachable)
    {node : Occurrence} {declarations : List Declaration}
    (hnode : node.tree.Declares declarations) :
    (∃ scope, builder.table.scope? builder.current = some scope ∧
      (scope.Admits declarations → ∃ next, builder.enter node = .done next ∧
        builder.Gains (declarations.map (·.symbol)) next) ∧
      (¬ scope.Admits declarations → ∃ front clash back next,
        declarations = front ++ clash :: back ∧ scope.Admits front ∧
        (clash.symbol.name ∈ scope.symbols.map (·.name) ∨
          clash.symbol.name ∈ front.map (·.symbol.name)) ∧
        builder.enter node =
          ⟨next, some (.semantic (.duplicate clash.symbol.name clash.place))⟩ ∧
        builder.Gains (front.map (·.symbol)) next)) ∧
    ∀ (other : Occurrence) (halt : Halt), (builder.exit other).halt = some halt →
      builder.opened = [] ∧ builder.exit other = ⟨builder, some .noOpenScope⟩ := by
  obtain ⟨operations, rfl⟩ := hreachable
  have hconsistent := consistent_preserved.perform_all operations consistent_start
  obtain ⟨scope, hscope⟩ := hconsistent.exists_current
  obtain ⟨front, next, hadmits, hgains, hends⟩ := exists_gains hscope declarations
  rw [← hnode.enter_eq] at hends
  refine ⟨⟨scope, hscope, fun hall => ?_, fun hnot => ?_⟩, fun _ _ => hconsistent.exit_of_halt⟩
  · rcases hends with ⟨rfl, hdone⟩ | ⟨clash, back, rfl, hclash, -⟩
    · exact ⟨next, hdone, hgains⟩
    · exfalso
      rcases hclash with hscope | hfront
      · exact hall.free clash (List.mem_append_right _ List.mem_cons_self) hscope
      · have hnodup := hall.nodup
        rw [List.map_append, List.nodup_append] at hnodup
        exact hnodup.2.2 _ hfront _ List.mem_cons_self rfl
  · rcases hends with ⟨rfl, -⟩ | ⟨clash, back, rfl, hclash, hhalt⟩
    · exact absurd hadmits hnot
    · exact ⟨front, clash, back, next, rfl, hadmits, hclash, hhalt, hgains⟩

/-- The list `FLOAT b, a` where the scope has an `a` already: it gains `b`. -/
theorem enter_gains_before_clash : ∃ next,
    (start.performAll [.declare ⟨"a", "INT", none⟩ .unknown]).enter
        ⟨[], .node .varDecl (.atEnd .start) none
          [.node .varType (.atEnd .start) none [.leaf ⟨.kwFloat, "FLOAT", .start⟩],
            .node .identList (.atEnd .start) none
              [.node .ident (.atEnd .start) none [.leaf ⟨.identifier, "b", .start⟩],
                .leaf ⟨.comma, ",", .start⟩,
                .node .ident (.atEnd .start) none [.leaf ⟨.identifier, "a", .start⟩]],
            .leaf ⟨.semicolon, ";", .start⟩]⟩ =
      ⟨next, some (.semantic (.duplicate "a" ⟨some 1, some 0⟩))⟩ ∧
    next.table.scope? globalScope =
      some ⟨"GLOBAL", .global, [⟨"a", "INT", none⟩, ⟨"b", "FLOAT", none⟩]⟩ := by
  have hscope : (start.performAll [.declare ⟨"a", "INT", none⟩ .unknown]).table.scope? globalScope =
      some ⟨"GLOBAL", .global, [⟨"a", "INT", none⟩]⟩ := by
    decide +kernel
  have hnode : Tree.Declares (.node .varDecl (.atEnd .start) none
      [.node .varType (.atEnd .start) none [.leaf ⟨.kwFloat, "FLOAT", .start⟩],
        .node .identList (.atEnd .start) none
          [.node .ident (.atEnd .start) none [.leaf ⟨.identifier, "b", .start⟩],
            .leaf ⟨.comma, ",", .start⟩,
            .node .ident (.atEnd .start) none [.leaf ⟨.identifier, "a", .start⟩]],
        .leaf ⟨.semicolon, ";", .start⟩]) _ :=
    .varDecl rfl rfl rfl
  obtain ⟨⟨scope, hcurrent, -, htaken⟩, -⟩ := @enter_gains_admitted _
    ⟨[.declare ⟨"a", "INT", none⟩ .unknown], rfl⟩ ⟨[], _⟩ _ hnode
  obtain rfl := Option.some.inj (hscope.symm.trans hcurrent)
  obtain ⟨front, clash, back, next, heq, -, hclash, henter, hgains⟩ :=
    htaken fun hadmits => absurd (hadmits.free _ (List.mem_cons_of_mem _ List.mem_cons_self))
      (by decide +kernel)
  have hlast := hgains.scope _ hscope
  -- the first of the two names is free, so the second is the one that is taken
  obtain _ | ⟨_, _ | ⟨_, front⟩⟩ := front
  · obtain ⟨rfl, -⟩ := List.cons.inj heq
    exact absurd hclash (by decide +kernel)
  · obtain ⟨hfirst, heq⟩ := List.cons.inj heq
    obtain ⟨hsecond, -⟩ := List.cons.inj heq
    rw [← hfirst] at hlast
    rw [← hsecond] at henter
    exact ⟨next, henter, hlast⟩
  · have hnone := (List.cons.inj (List.cons.inj heq).2).2
    exact absurd hnone (List.append_ne_nil_of_right_ne_nil front (List.cons_ne_nil _ _)).symm

end Builder

end Little
