import Little.Proofs.Scope.Walk

/-!
# What every operation of a builder preserves

A builder is meant to be driven by one walk, but its operations can be called in any order: nodes
entered twice or left without having been entered, parts of a tree walked through again, symbols
declared at any time. An `Operation` is one such call. All that calls come to is declaring a symbol,
opening a scope and closing the innermost one. `Builder.Declares` and `Builder.Closes` say all that
the first and the last can lead to. What the three preserve is preserved by every call
(`Builder.Preserved.perform`) and by any number of them, those that halt included
(`Builder.Preserved.perform_all`). The reasons to halt are followed along the way.
-/

namespace Little

namespace SymbolTable

/-- Name and kind of every scope ever added. -/
def labels (table : SymbolTable) : List (String × ScopeKind) :=
  table.scopes.map fun scope => (scope.name, scope.kind)

variable {table next : SymbolTable} {handle : Handle}

@[simp] theorem labels_add (table : SymbolTable) (name : String) (kind : ScopeKind) :
    (table.add name kind).labels = table.labels ++ [(name, kind)] := by
  simp [labels, add]

/-- A definition fails for one reason only. -/
theorem eq_duplicate_of_define {symbol : Symbol} {place : Location} {error : SemanticError}
    (h : table.define handle symbol place = .error error) :
    error = .duplicate symbol.name place := by
  unfold define at h
  split at h
  · cases h
  · next scope _ =>
    unfold Scope.define at h
    split at h
    · cases h
      rfl
    · cases h

/-- `Defines table symbol next` says that `next` has one symbol more, in a scope that had none of
its name. -/
structure Defines (table : SymbolTable) (symbol : Symbol) (next : SymbolTable) : Prop where
  order : next.order = table.order
  labels : next.labels = table.labels
  scope : ∀ handle scope, next.scope? handle = some scope →
    table.scope? handle = some scope ∨
      ∃ before, table.scope? handle = some before ∧ before.lookup symbol.name = none ∧
        scope = { before with symbols := before.symbols ++ [symbol] }

theorem defines_of_define {symbol : Symbol} {place : Location}
    (h : table.define handle symbol place = .ok next) : table.Defines symbol next := by
  unfold define at h
  split at h
  · cases h
    exact ⟨rfl, rfl, fun _ _ => .inl⟩
  · next before hbefore =>
    unfold Scope.define at h
    split at h
    · cases h
    · next hfresh =>
      cases h
      refine ⟨rfl, ?_, fun other scope hscope => ?_⟩
      · obtain ⟨hlt, hget⟩ := List.getElem?_eq_some_iff.1 hbefore
        simp only [labels, List.map_set]
        refine List.ext_getElem? fun index => ?_
        by_cases heq : handle = index
        · subst heq
          simp [hlt, hget]
        · simp [heq]
      · simp only [scope?, List.getElem?_set] at hscope
        split at hscope
        · next heq =>
          subst heq
          split at hscope
          · exact .inr ⟨before, hbefore, hfresh, (Option.some.inj hscope).symm⟩
          · cases hscope
        · exact .inl hscope

end SymbolTable

namespace Builder

/-- What declaring a symbol leads to. -/
inductive Declares (builder : Builder) (symbol : Symbol) (place : Location) : Outcome → Prop where
  | declared {table : SymbolTable} (htable : builder.table.Defines symbol table)
      (notices : List Notice) :
      Declares builder symbol place (.done { builder with table := table, notices := notices })
  | taken (notices : List Notice) :
      Declares builder symbol place
        ⟨{ builder with notices := notices }, some (.semantic (.duplicate symbol.name place))⟩

/-- What closing the innermost scope leads to. -/
inductive Closes (builder : Builder) : Outcome → Prop where
  | noOpenScope (hopened : builder.opened = []) : Closes builder ⟨builder, some .noOpenScope⟩
  | kept {handle : Handle} {opened : List Handle} (hopened : builder.opened = handle :: opened)
      (hempty : builder.isEmptyBlock handle = false) (notices : List Notice) :
      Closes builder
        (.done { builder with current := globalScope, opened := opened, notices := notices })
  | dropped {handle : Handle} {opened : List Handle} (hopened : builder.opened = handle :: opened)
      (hempty : builder.isEmptyBlock handle = true) (hmem : handle ∈ builder.table.order)
      (notices : List Notice) :
      Closes builder
        (.done
          { builder with
            table := { builder.table with order := builder.table.order.erase handle }
            current := globalScope
            opened := opened
            notices := notices })
  | unlisted {handle : Handle} {opened : List Handle} (hopened : builder.opened = handle :: opened)
      (hmem : handle ∉ builder.table.order) :
      Closes builder ⟨{ builder with opened := opened }, some .unlistedScope⟩

theorem declares (builder : Builder) (symbol : Symbol) (place : Location) :
    builder.Declares symbol place (builder.declare symbol place) := by
  unfold declare
  dsimp only
  split
  · next table htable => exact .declared (SymbolTable.defines_of_define htable) _
  · next error herror =>
    rw [SymbolTable.eq_duplicate_of_define herror]
    exact .taken _

theorem closes (builder : Builder) : builder.Closes builder.close := by
  unfold close
  cases hopened : builder.opened with
  | nil => exact .noOpenScope hopened
  | cons handle opened =>
      dsimp only
      split
      · next hempty =>
        unfold SymbolTable.discard
        by_cases hmem : handle ∈ builder.table.order
        · rw [if_pos (List.contains_iff_mem.2 hmem)]
          exact .dropped hopened hempty hmem _
        · rw [if_neg (mt List.contains_iff_mem.1 hmem)]
          exact .unlisted hopened hmem
      · next hempty => exact .kept hopened (eq_false_of_ne_true hempty) _

end Builder

/-- Something that can be done to a builder. -/
inductive Operation where
  /-- What is due before the parts of a node. -/
  | enter (node : Occurrence)
  /-- What is due after the parts of a node. -/
  | exit (node : Occurrence)
  /-- A walk through a part of a tree. -/
  | walk (part : Occurrence)
  | declare (symbol : Symbol) (place : Location)

namespace Builder

/-- Carries out one operation. -/
def perform (builder : Builder) : Operation → Outcome
  | .enter node => builder.enter node
  | .exit node => builder.exit node
  | .walk part => builder.walk part.events
  | .declare symbol place => builder.declare symbol place

/-- Carries out operations one after the other, those behind one that halts included. -/
def performAll (builder : Builder) (operations : List Operation) : Builder :=
  operations.foldl (fun builder operation => (builder.perform operation).builder) builder

end Builder

/-- What an outcome leaves is as `holds` says, and it is halted only for what `allows` names. -/
structure Outcome.Keeps (holds : Builder → Prop) (allows : Halt → Prop) (outcome : Outcome) :
    Prop where
  builder : holds outcome.builder
  halt : ∀ halt, outcome.halt = some halt → allows halt

namespace Outcome.Keeps

variable {holds : Builder → Prop} {allows : Halt → Prop}

theorem done {builder : Builder} (h : holds builder) : (Outcome.done builder).Keeps holds allows :=
  ⟨h, nofun⟩

theorem halted {builder : Builder} {halt : Halt} (h : holds builder) (hhalt : allows halt) :
    (Outcome.mk builder (some halt)).Keeps holds allows :=
  ⟨h, fun _ heq => Option.some.inj heq ▸ hhalt⟩

theorem and_then {outcome : Outcome} {next : Builder → Outcome} (h : outcome.Keeps holds allows)
    (hnext : ∀ builder, holds builder → (next builder).Keeps holds allows) :
    (outcome.andThen next).Keeps holds allows := by
  unfold andThen
  split
  · exact h
  · exact hnext outcome.builder h.builder

end Outcome.Keeps

namespace Builder

/-- What is preserved by declaring a symbol, by opening a scope and by closing one. -/
structure Preserved (holds : Builder → Prop) (allows : Halt → Prop) : Prop where
  declare : ∀ (builder : Builder) (symbol : Symbol) (place : Location), holds builder →
    (builder.declare symbol place).Keeps holds allows
  openFunction : ∀ (builder : Builder) (name : String), holds builder →
    holds (builder.openScope name .function)
  openBlock : ∀ builder : Builder, holds builder → holds builder.openBlock
  close : ∀ builder : Builder, holds builder → builder.close.Keeps holds allows
  missingPart : allows .missingPart

namespace Preserved

variable {holds : Builder → Prop} {allows : Halt → Prop} {builder : Builder}

theorem declare_all (h : Preserved holds allows) (declarations : List (Option Declaration))
    (hbuilder : holds builder) : (builder.declareAll declarations).Keeps holds allows := by
  induction declarations generalizing builder with
  | nil => exact .done hbuilder
  | cons declaration rest ih =>
      cases declaration with
      | none => exact .halted hbuilder h.missingPart
      | some declaration =>
          exact (h.declare builder declaration.symbol declaration.place hbuilder).and_then
            fun next hnext => ih hnext

theorem step (h : Preserved holds allows) (event : Event) (hbuilder : holds builder) :
    (builder.step event).Keeps holds allows := by
  cases event with
  | enter node =>
      show (builder.enter node).Keeps holds allows
      unfold Builder.enter
      split
      · exact .done (h.openBlock builder hbuilder)
      · split
        · cases node.tree.childOf? .ident with
          | none => exact .halted hbuilder h.missingPart
          | some ident => exact .done (h.openFunction builder ident.text hbuilder)
        · exact h.declare_all _ hbuilder
  | exit node =>
      show (builder.exit node).Keeps holds allows
      unfold Builder.exit
      split
      · exact h.close builder hbuilder
      · exact .done hbuilder
  | leaf leaf => exact .done hbuilder

theorem walk (h : Preserved holds allows) (events : List Event) (hbuilder : holds builder) :
    (builder.walk events).Keeps holds allows := by
  induction events generalizing builder with
  | nil => exact .done hbuilder
  | cons event events ih => exact (h.step event hbuilder).and_then fun next hnext => ih hnext

theorem perform (h : Preserved holds allows) (operation : Operation) (hbuilder : holds builder) :
    (builder.perform operation).Keeps holds allows := by
  cases operation with
  | enter node => exact h.step (.enter node) hbuilder
  | exit node => exact h.step (.exit node) hbuilder
  | walk part => exact h.walk part.events hbuilder
  | declare symbol place => exact h.declare builder symbol place hbuilder

theorem perform_all (h : Preserved holds allows) (operations : List Operation)
    (hbuilder : holds builder) : holds (builder.performAll operations) := by
  induction operations generalizing builder with
  | nil => exact hbuilder
  | cons operation operations ih => exact ih (h.perform operation hbuilder).builder

end Preserved

end Builder

end Little
