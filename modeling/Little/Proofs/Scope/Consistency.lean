import Mathlib.Data.List.Nodup
import Mathlib.Data.List.Range
import Little.Proofs.Scope.Preserved
import Little.Proofs.Scope.Regions

/-!
# What holds of a builder whatever is done with it

`Builder.Consistent` is what holds of every builder that was started and then called in any way, in
whatever order and for whatever nodes. Table, open scopes, current scope and block numbers are tied
together in it, and each of declaring, opening and closing keeps it (`consistent_preserved`). Names
and kinds of scopes are taken together as their `labels`, which only ever grow at the end
(`Builder.GrowsTo`).
-/

namespace Little

namespace SymbolTable

variable {table : SymbolTable} {handle : Handle} {scope : Scope}

theorem label_of_scope (h : table.scope? handle = some scope) :
    table.labels[handle]? = some (scope.name, scope.kind) := by
  unfold scope? at h
  rw [labels, List.getElem?_map, h]
  rfl

theorem lt_of_scope (h : table.scope? handle = some scope) : handle < table.scopes.length :=
  (List.getElem?_eq_some_iff.1 h).1

/-- A scope that was added is the last one, and all others are as they were. -/
theorem scope_of_add {name : String} {kind : ScopeKind}
    (h : (table.add name kind).scope? handle = some scope) :
    (handle = table.nextHandle ∧ scope = ⟨name, kind, []⟩) ∨ table.scope? handle = some scope := by
  unfold scope? add at h
  rw [List.getElem?_append] at h
  split at h
  · exact .inr h
  · next hle =>
    obtain ⟨hindex, hscope⟩ := List.getElem?_eq_some_iff.1 h
    rw [List.length_singleton, Nat.lt_one_iff] at hindex
    refine .inl ⟨?_, by simpa [hindex] using hscope.symm⟩
    exact Nat.le_antisymm (Nat.le_of_sub_eq_zero hindex) (Nat.le_of_not_lt hle)

end SymbolTable

/-- `Numbered labels number` says that the first of the scopes is the global one and the only one of
its kind, and that the others are functions and blocks, where the blocks are numbered from 1 in
their order and `number` comes next. -/
def Numbered (labels : List (String × ScopeKind)) (number : Nat) : Prop :=
  ∃ rest count, labels = (globalName, .global) :: rest ∧ number = count + 1 ∧
    (∀ label ∈ rest, label.2 = .function ∨ label.2 = .block) ∧
    (rest.filter (·.2 = .block)).map (·.1) = (List.range' 1 count).map blockName

theorem Numbered.function {labels : List (String × ScopeKind)} {number : Nat}
    (h : Numbered labels number) (name : String) :
    Numbered (labels ++ [(name, .function)]) number := by
  obtain ⟨rest, count, rfl, rfl, hkinds, hnames⟩ := h
  refine ⟨rest ++ [(name, .function)], count, rfl, rfl, ?_, ?_⟩
  · simpa [or_imp, forall_and] using hkinds
  · simpa [List.filter_append] using hnames

theorem Numbered.block {labels : List (String × ScopeKind)} {number : Nat}
    (h : Numbered labels number) :
    Numbered (labels ++ [(blockName number, .block)]) (number + 1) := by
  obtain ⟨rest, count, rfl, rfl, hkinds, hnames⟩ := h
  refine ⟨rest ++ [(blockName (count + 1), .block)], count + 1, rfl, rfl, ?_, ?_⟩
  · simpa [or_imp, forall_and] using hkinds
  · rw [List.filter_append, List.map_append, hnames, List.range'_1_concat, List.map_append,
      Nat.add_comm 1 count]
    rfl

/-- What can be wrong where something is declared: a name is taken, or a part is not there. -/
def Halt.OfDeclaration (halt : Halt) : Prop :=
  (∃ name place, halt = .semantic (.duplicate name place)) ∨ halt = .missingPart

namespace Builder

/-- What holds of a builder whatever was done with it. -/
structure Consistent (builder : Builder) : Prop where
  /-- The scopes ever added, with the number of the next block. -/
  numbered : Numbered builder.table.labels builder.nextBlock
  /-- Scopes stand in the table in the order in which they were added. -/
  sorted : builder.table.order.Pairwise (· < ·)
  listed : builder.Listed
  /-- The global scope stands first. -/
  first : builder.table.order.head? = some globalScope
  /-- Only blocks ever leave the table. -/
  stays : ∀ handle scope, builder.table.scope? handle = some scope → scope.kind ≠ .block →
    handle ∈ builder.table.order
  /-- The open scopes, the outermost first, are in the table, in the same order. -/
  opened : builder.opened.reverse.Sublist builder.table.order
  /-- Declarations go to the global scope or to the innermost one. -/
  current : builder.current = globalScope ∨ builder.opened.head? = some builder.current
  /-- A block in the table is open or has a symbol. -/
  filled : ∀ handle ∈ builder.table.order, ∀ scope, builder.table.scope? handle = some scope →
    scope.kind = .block → handle ∈ builder.opened ∨ scope.symbols ≠ []
  /-- No scope has two symbols of one name. -/
  names : ∀ handle scope, builder.table.scope? handle = some scope →
    (scope.symbols.map (·.name)).Nodup

/-- The reasons for which an operation halts. -/
def Halts (halt : Halt) : Prop := halt.OfDeclaration ∨ halt = .noOpenScope

theorem consistent_start : start.Consistent where
  numbered := ⟨[], 0, rfl, rfl, nofun, rfl⟩
  sorted := List.pairwise_singleton _ _
  listed := by simp [Listed, start, SymbolTable.add, SymbolTable.empty, SymbolTable.nextHandle]
  first := rfl
  stays := by
    intro handle scope hscope _
    have hlt := SymbolTable.lt_of_scope hscope
    simpa [start, SymbolTable.add, SymbolTable.empty, SymbolTable.nextHandle] using hlt
  opened := List.nil_sublist _
  current := .inl rfl
  filled := by
    intro handle hmem scope hscope hkind
    obtain rfl : handle = 0 := List.mem_singleton.1 hmem
    cases hscope
    cases hkind
  names := by
    intro handle scope hscope
    rcases SymbolTable.scope_of_add hscope with ⟨-, rfl⟩ | hscope
    · exact List.nodup_nil
    · cases hscope

namespace Consistent

variable {builder : Builder}

theorem nodup (h : builder.Consistent) : builder.table.order.Nodup :=
  h.sorted.imp Nat.ne_of_lt

theorem mem_of_opened (h : builder.Consistent) {handle : Handle} (hmem : handle ∈ builder.opened) :
    handle ∈ builder.table.order :=
  h.opened.subset (List.mem_reverse.2 hmem)

/-- The global scope is no block. -/
theorem kind_global (h : builder.Consistent) {scope : Scope}
    (hscope : builder.table.scope? globalScope = some scope) : scope.kind = .global := by
  obtain ⟨rest, _, hlabels, -⟩ := h.numbered
  have hlabel := SymbolTable.label_of_scope hscope
  rw [hlabels] at hlabel
  exact (congrArg Prod.snd (Option.some.inj hlabel)).symm

/-- All scopes but the first are functions and blocks. -/
theorem kind_of_ne_global (h : builder.Consistent) {handle : Handle} {scope : Scope}
    (hscope : builder.table.scope? handle = some scope) (hne : handle ≠ globalScope) :
    scope.kind = .function ∨ scope.kind = .block := by
  obtain ⟨rest, _, hlabels, -, hkinds, -⟩ := h.numbered
  have hlabel := SymbolTable.label_of_scope hscope
  obtain ⟨index, rfl⟩ := Nat.exists_eq_succ_of_ne_zero hne
  rw [hlabels, List.getElem?_cons_succ] at hlabel
  exact hkinds _ (List.mem_of_getElem? hlabel)

theorem kind_eq_global_iff (h : builder.Consistent) {handle : Handle} {scope : Scope}
    (hscope : builder.table.scope? handle = some scope) :
    scope.kind = .global ↔ handle = globalScope := by
  constructor
  · intro hkind
    by_contra hne
    rcases h.kind_of_ne_global hscope hne with hother | hother
    · exact absurd (hkind.symm.trans hother) (by decide)
    · exact absurd (hkind.symm.trans hother) (by decide)
  · rintro rfl
    exact h.kind_global hscope

/-- A scope that is opened comes last and is the innermost one. -/
theorem open_scope (h : builder.Consistent) {name : String} {kind : ScopeKind} {number : Nat}
    (hnumbered : Numbered (builder.table.labels ++ [(name, kind)]) number) :
    ({ builder with nextBlock := number }.openScope name kind).Consistent := by
  have hlt : ∀ handle ∈ builder.table.order, handle < builder.table.nextHandle := h.listed
  constructor
  · simpa [openScope, note] using hnumbered
  · exact List.pairwise_append.2 ⟨h.sorted, List.pairwise_singleton _ _, by simpa using hlt⟩
  · intro handle hmem
    show handle < (builder.table.scopes ++ [_]).length
    rw [List.length_append, List.length_singleton]
    rcases List.mem_append.1 hmem with hmem | hmem
    · exact Nat.lt_succ_of_lt (hlt handle hmem)
    · rw [List.mem_singleton.1 hmem]
      exact Nat.lt_succ_self _
  · show (builder.table.order ++ [_]).head? = some globalScope
    rw [List.head?_append, h.first]
    rfl
  · intro handle scope hscope hkind
    rcases SymbolTable.scope_of_add hscope with ⟨rfl, -⟩ | hscope
    · exact List.mem_append_right _ (List.mem_singleton_self _)
    · exact List.mem_append_left _ (h.stays handle scope hscope hkind)
  · show (builder.table.nextHandle :: builder.opened).reverse.Sublist
      (builder.table.order ++ [builder.table.nextHandle])
    rw [List.reverse_cons]
    exact h.opened.append (List.Sublist.refl _)
  · exact .inr rfl
  · intro handle hmem scope hscope hkind
    rcases SymbolTable.scope_of_add hscope with ⟨rfl, -⟩ | hscope
    · exact .inl List.mem_cons_self
    · refine (h.filled handle ?_ scope hscope hkind).imp_left (List.mem_cons_of_mem _)
      rcases List.mem_append.1 hmem with hmem | hmem
      · exact hmem
      · -- the handle of the new scope belonged to none before
        rw [List.mem_singleton.1 hmem] at hscope
        exact absurd (SymbolTable.lt_of_scope hscope) (Nat.lt_irrefl _)
  · intro handle scope hscope
    rcases SymbolTable.scope_of_add hscope with ⟨-, rfl⟩ | hscope
    · exact List.nodup_nil
    · exact h.names handle scope hscope

/-- A symbol more in a scope without one of its name changes nothing else. -/
theorem define (h : builder.Consistent) {symbol : Symbol} {table : SymbolTable}
    (htable : builder.table.Defines symbol table) (notices : List Notice) :
    Consistent { builder with table := table, notices := notices } := by
  have hlength : table.scopes.length = builder.table.scopes.length := by
    simpa [SymbolTable.labels] using congrArg List.length htable.labels
  constructor
  · exact htable.labels.symm ▸ h.numbered
  · exact htable.order.symm ▸ h.sorted
  · intro handle hmem
    exact hlength.symm ▸ h.listed handle (htable.order ▸ hmem)
  · exact htable.order.symm ▸ h.first
  · intro handle scope hscope hkind
    show handle ∈ table.order
    rw [htable.order]
    rcases htable.scope handle scope hscope with hbefore | ⟨before, hbefore, -, rfl⟩
    · exact h.stays handle scope hbefore hkind
    · exact h.stays handle before hbefore hkind
  · exact htable.order.symm ▸ h.opened
  · exact h.current
  · intro handle hmem scope hscope hkind
    rcases htable.scope handle scope hscope with hbefore | ⟨before, -, -, rfl⟩
    · exact h.filled handle (htable.order ▸ hmem) scope hbefore hkind
    · exact .inr (List.concat_ne_nil _ _)
  · intro handle scope hscope
    rcases htable.scope handle scope hscope with hbefore | ⟨before, hbefore, hfresh, rfl⟩
    · exact h.names handle scope hbefore
    · have hnames := h.names handle before hbefore
      rw [Scope.lookup_eq_none_iff] at hfresh
      simpa [List.nodup_append, hnames] using fun symbol' hmem heq =>
        hfresh (List.mem_map.2 ⟨symbol', hmem, heq⟩)

/-- A block without symbols is taken out of the table, where its handle stands once. -/
theorem drop (h : builder.Consistent) {handle : Handle} {opened : List Handle} {scope : Scope}
    (hopened : builder.opened = handle :: opened)
    (hscope : builder.table.scope? handle = some scope) (hkind : scope.kind = .block)
    (notices : List Notice) :
    Consistent
      { builder with
        table := { builder.table with order := builder.table.order.erase handle }
        current := globalScope
        opened := opened
        notices := notices } := by
  have hreverse := h.opened
  rw [hopened, List.reverse_cons] at hreverse
  have hfresh : handle ∉ opened.reverse := by
    have hnodup := hreverse.nodup h.nodup
    rw [List.nodup_append] at hnodup
    exact fun hmem => hnodup.2.2 handle hmem handle (List.mem_singleton_self _) rfl
  have hglobal : handle ≠ globalScope := by
    rintro rfl
    exact absurd (hkind.symm.trans (h.kind_global hscope)) (by decide)
  constructor
  · exact h.numbered
  · exact h.sorted.sublist List.erase_sublist
  · exact fun other hmem => h.listed other (List.mem_of_mem_erase hmem)
  · obtain ⟨rest, hrest⟩ : ∃ rest, builder.table.order = globalScope :: rest :=
      List.head?_eq_some_iff.1 h.first
    show (builder.table.order.erase handle).head? = some globalScope
    rw [hrest, List.erase_cons_tail (by simpa using hglobal.symm)]
    rfl
  · intro other scope' hscope' hkind'
    refine (List.mem_erase_of_ne ?_).2 (h.stays other scope' hscope' hkind')
    rintro rfl
    exact hkind' (Option.some.inj (hscope.symm.trans hscope') ▸ hkind)
  · have herase := hreverse.erase handle
    rwa [List.erase_append_right _ hfresh, List.erase_cons_head, List.append_nil] at herase
  · exact .inl rfl
  · intro other hmem scope' hscope' hkind'
    rw [h.nodup.mem_erase_iff] at hmem
    have hfilled := h.filled other hmem.2 scope' hscope' hkind'
    rw [hopened] at hfilled
    exact hfilled.imp_left fun hother => (List.mem_cons.1 hother).resolve_left hmem.1
  · exact h.names

/-- Any other scope stays in the table when it is closed. -/
theorem keep (h : builder.Consistent) {handle : Handle} {opened : List Handle}
    (hopened : builder.opened = handle :: opened)
    (hempty : ∀ scope, builder.table.scope? handle = some scope → scope.kind = .block →
      scope.symbols ≠ [])
    (notices : List Notice) :
    Consistent
      { builder with current := globalScope, opened := opened, notices := notices } := by
  have hreverse := h.opened
  rw [hopened, List.reverse_cons] at hreverse
  refine ⟨h.numbered, h.sorted, h.listed, h.first, h.stays, ?_, .inl rfl, ?_, h.names⟩
  · exact (List.sublist_append_left _ _).trans hreverse
  · intro other hmem scope hscope hkind
    by_cases heq : other = handle
    · subst heq
      exact .inr (hempty scope hscope hkind)
    · have hfilled := h.filled other hmem scope hscope hkind
      rw [hopened] at hfilled
      exact hfilled.imp_left fun hother => (List.mem_cons.1 hother).resolve_left heq

/-- Closing keeps a builder consistent, and the scope to be dropped is always in the table. -/
theorem close (h : builder.Consistent) : builder.close.Keeps Consistent Halts := by
  have hcloses := builder.closes
  generalize builder.close = outcome at hcloses ⊢
  cases hcloses with
  | noOpenScope => exact .halted h (.inr rfl)
  | kept hopened hempty notices =>
      refine .done (h.keep hopened (fun scope hscope hkind hnil => ?_) notices)
      rw [isEmptyBlock, hscope, Option.any_some] at hempty
      simp [hkind, Scope.isEmpty, hnil] at hempty
  | dropped hopened hempty _ notices =>
      obtain ⟨scope, hscope, hblock⟩ := (Option.any_eq_true _ _).1 hempty
      rw [Bool.and_eq_true, decide_eq_true_eq] at hblock
      exact .done (h.drop hopened hscope hblock.1 notices)
  | unlisted hopened hmem =>
      exact absurd (h.mem_of_opened (hopened ▸ List.mem_cons_self)) hmem

end Consistent

/-- Declaring, opening and closing keep a builder consistent. -/
theorem consistent_preserved : Preserved Consistent Halts where
  declare builder symbol place h := by
    have hdeclares := builder.declares symbol place
    generalize builder.declare symbol place = outcome at hdeclares ⊢
    cases hdeclares with
    | declared htable notices => exact .done (h.define htable notices)
    | taken notices =>
        exact .halted ⟨h.numbered, h.sorted, h.listed, h.first, h.stays, h.opened, h.current,
          h.filled, h.names⟩ (.inl (.inl ⟨_, _, rfl⟩))
  openFunction builder name h := h.open_scope (h.numbered.function name)
  openBlock builder h := h.open_scope h.numbered.block
  close builder h := h.close
  missingPart := .inl (.inr rfl)

/-- `builder.GrowsTo next` says that scopes were only added, with the handles that come next, and
that the numbers of blocks only went up. -/
structure GrowsTo (builder next : Builder) : Prop where
  labels : builder.table.labels <+: next.table.labels
  nextBlock : builder.nextBlock ≤ next.nextBlock

theorem GrowsTo.refl (builder : Builder) : builder.GrowsTo builder :=
  ⟨List.prefix_rfl, Nat.le_refl _⟩

/-- Declaring, opening and closing only make a builder grow. -/
theorem grows_preserved (builder : Builder) : Preserved builder.GrowsTo fun _ => True where
  declare next symbol place h := by
    have hdeclares := next.declares symbol place
    generalize next.declare symbol place = outcome at hdeclares ⊢
    cases hdeclares with
    | declared htable => exact .done ⟨htable.labels.symm ▸ h.labels, h.nextBlock⟩
    | taken => exact .halted ⟨h.labels, h.nextBlock⟩ trivial
  openFunction next name h := by
    refine ⟨?_, h.nextBlock⟩
    show builder.table.labels <+: (next.table.add name .function).labels
    rw [SymbolTable.labels_add]
    exact h.labels.trans (List.prefix_append _ _)
  openBlock next h := by
    refine ⟨?_, Nat.le_succ_of_le h.nextBlock⟩
    show builder.table.labels <+: (next.table.add (blockName next.nextBlock) .block).labels
    rw [SymbolTable.labels_add]
    exact h.labels.trans (List.prefix_append _ _)
  close next h := by
    have hcloses := next.closes
    generalize next.close = outcome at hcloses ⊢
    cases hcloses with
    | noOpenScope => exact .halted h trivial
    | kept | dropped => exact .done ⟨h.labels, h.nextBlock⟩
    | unlisted => exact .halted ⟨h.labels, h.nextBlock⟩ trivial
  missingPart := trivial

section Growth

variable {builder next : Builder} {handle : Handle} {scope : Scope}

/-- A scope keeps its handle, its name and its kind. -/
theorem GrowsTo.exists_scope (h : builder.GrowsTo next)
    (hscope : builder.table.scope? handle = some scope) :
    ∃ scope', next.table.scope? handle = some scope' ∧ scope'.name = scope.name ∧
      scope'.kind = scope.kind := by
  have hlabel := SymbolTable.label_of_scope hscope
  obtain ⟨more, hmore⟩ := h.labels
  have hnext : next.table.labels[handle]? = some (scope.name, scope.kind) := by
    rw [← hmore, List.getElem?_append_left (List.getElem?_eq_some_iff.1 hlabel).1, hlabel]
  rw [SymbolTable.labels, List.getElem?_map, Option.map_eq_some_iff] at hnext
  obtain ⟨scope', hscope', heq⟩ := hnext
  exact ⟨scope', hscope', congrArg Prod.fst heq, congrArg Prod.snd heq⟩

/-- What is no block is never taken out of the table. -/
theorem Consistent.remains (h : next.Consistent) (hgrows : builder.GrowsTo next)
    (hscope : builder.table.scope? handle = some scope) (hkind : scope.kind ≠ .block) :
    handle ∈ next.table.order := by
  obtain ⟨scope', hscope', -, hkind'⟩ := hgrows.exists_scope hscope
  exact h.stays handle scope' hscope' (hkind' ▸ hkind)

end Growth

/-- What handles in increasing order stand for is found in this order. -/
theorem filter_map_sublist {order : List Handle} (scopes : List Scope)
    (h : order.Pairwise (· < ·)) : (order.filterMap (scopes[·]?)).Sublist scopes := by
  suffices ∀ first, (∀ handle ∈ order, first ≤ handle) →
      (order.filterMap (scopes[·]?)).Sublist (scopes.drop first) by
    simpa using this 0 fun _ _ => Nat.zero_le _
  induction order with
  | nil => exact fun _ _ => List.nil_sublist _
  | cons handle order ih =>
      intro first hfirst
      obtain ⟨hhead, htail⟩ := List.pairwise_cons.1 h
      have hrest := ih htail (handle + 1) hhead
      have hdrop : (scopes.drop handle).Sublist (scopes.drop first) :=
        List.drop_sublist_drop_left scopes (hfirst handle List.mem_cons_self)
      refine List.Sublist.trans ?_ hdrop
      rw [List.filterMap_cons]
      cases hscope : scopes[handle]? with
      | none => exact hrest.trans (List.drop_sublist_drop_left scopes (Nat.le_succ handle))
      | some scope =>
          obtain ⟨hlt, rfl⟩ := List.getElem?_eq_some_iff.1 hscope
          rw [List.drop_eq_getElem_cons hlt]
          exact hrest.cons_cons _

/-- Along the table the numbers of the blocks increase. -/
theorem Consistent.exists_numbers {builder : Builder} (h : builder.Consistent) :
    ∃ numbers : List Nat, numbers.Pairwise (· < ·) ∧
      (∀ number ∈ numbers, 1 ≤ number ∧ number < builder.nextBlock) ∧
      (builder.table.listed.filter (·.kind = .block)).map (·.name) = numbers.map blockName := by
  obtain ⟨rest, count, hlabels, hnumber, -, hnames⟩ := h.numbered
  have hall : (builder.table.scopes.filter (·.kind = .block)).map (·.name) =
      (List.range' 1 count).map blockName := by
    have hfilter := congrArg (fun labels => (labels.filter (·.2 = .block)).map (·.1)) hlabels
    simpa [SymbolTable.labels, List.filter_map, Function.comp_def, hnames] using hfilter
  have hsublist := ((filter_map_sublist builder.table.scopes h.sorted).filter
    (·.kind = .block)).map (·.name)
  rw [hall] at hsublist
  obtain ⟨numbers, hnumbers, heq⟩ := List.sublist_map_iff.1 hsublist
  refine ⟨numbers, (List.pairwise_lt_range' (s := 1)).sublist hnumbers, fun number hmem => ?_, heq⟩
  have hrange := List.mem_range'_1.1 (hnumbers.subset hmem)
  omega

/-- Whatever is done to a builder, for whatever nodes of whatever trees and in whatever order, it
stays consistent: the global scope stands first and is the only one of its kind, the open scopes
stand in the table in their order, declarations go to the innermost of them or to the global scope,
blocks in the table are open or have symbols and are numbered upwards, and no scope has a name
twice. A scope that is to be dropped is never missing, scopes other than blocks are never dropped,
and numbers are never given twice. -/
theorem perform_all_consistent (operations : List Operation) :
    (start.performAll operations).Consistent ∧
    (∀ handle scope, (start.performAll operations).table.scope? handle = some scope →
      (scope.kind = .global ↔ handle = globalScope)) ∧
    (start.performAll operations).opened.Nodup ∧
    (∃ numbers : List Nat, numbers.Pairwise (· < ·) ∧
      (∀ number ∈ numbers, 1 ≤ number ∧ number < (start.performAll operations).nextBlock) ∧
      ((start.performAll operations).table.listed.filter (·.kind = .block)).map (·.name) =
        numbers.map blockName) ∧
    (∀ operation : Operation,
      ((start.performAll operations).perform operation).halt ≠ some .unlistedScope) ∧
    ∀ more : List Operation,
      (start.performAll operations).nextBlock ≤ (start.performAll (operations ++ more)).nextBlock ∧
      ∀ handle scope, (start.performAll operations).table.scope? handle = some scope →
        (∃ scope', (start.performAll (operations ++ more)).table.scope? handle = some scope' ∧
          scope'.name = scope.name ∧ scope'.kind = scope.kind) ∧
        (scope.kind ≠ .block → handle ∈ (start.performAll (operations ++ more)).table.order) := by
  have h := consistent_preserved.perform_all operations consistent_start
  refine ⟨h, fun _ _ => h.kind_eq_global_iff, List.nodup_reverse.1 (h.opened.nodup h.nodup),
    h.exists_numbers, ?_, fun more => ?_⟩
  · intro operation hhalt
    have hhalts := (consistent_preserved.perform operation h).halt _ hhalt
    simp [Halts, Halt.OfDeclaration] at hhalts
  · have hmore : start.performAll (operations ++ more) =
        (start.performAll operations).performAll more := List.foldl_append
    have hlast := consistent_preserved.perform_all more h
    have hgrows := (grows_preserved (start.performAll operations)).perform_all more (.refl _)
    rw [hmore]
    exact ⟨hgrows.nextBlock, fun handle scope hscope =>
      ⟨hgrows.exists_scope hscope, hlast.remains hgrows hscope⟩⟩

end Builder

end Little
