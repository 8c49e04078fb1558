import Mathlib.Data.List.Nodup
import Mathlib.Data.List.Range
import Little.Proofs.Scope.Regions

/-!
# A table is what its log says

A scope can be used by its handle as long as one likes, in the table or out of it, and several
scopes can have one name. Here a table is called in any order, and what it holds is worked out from
the log of the calls and their answers alone: the scopes that were added, those of them that were
not discarded (`Exchange.remaining`), and the symbols that were defined in a scope with success
(`Exchange.defined`). `SymbolTable.Follows.perform` is one call, and `table_follows_log` says that
after any calls the table is what the log says, and that each answer is what the log before it asks
for (`TableCall.expected`).
-/

namespace Little

/-- A call of a table, or of one of its scopes by its handle. -/
inductive TableCall where
  | add (name : String) (kind : ScopeKind)
  | define (handle : Handle) (symbol : Symbol) (place : Location)
  | lookup (handle : Handle) (name : String)
  | discard (handle : Handle)
  | get (name : String)
  | contains (name : String)
deriving DecidableEq, Repr

/-- What is answered to a call. -/
inductive TableAnswer where
  | added (handle : Handle)
  | defined
  | refused (error : SemanticError)
  | found (symbol : Option Symbol)
  | discarded
  /-- The scope to be discarded is not in the table. -/
  | unlisted
  | first (handle : Option Handle)
  | held (answer : Bool)
deriving DecidableEq, Repr

/-- Whether an answer is an error. -/
def TableAnswer.failed : TableAnswer → Bool
  | .refused _ | .unlisted => true
  | _ => false

/-- A call and its answer. -/
structure Exchange where
  call : TableCall
  answer : TableAnswer
deriving DecidableEq, Repr

namespace TableCall

/-- Name and kind of the scope that a call adds. -/
def label? : TableCall → Option (String × ScopeKind)
  | .add name kind => some (name, kind)
  | _ => none

/-- The handle of the scope that is called. -/
def handle? : TableCall → Option Handle
  | .define handle _ _ | .lookup handle _ | .discard handle => some handle
  | _ => none

/-- Whether a call only asks. -/
def asks : TableCall → Bool
  | .lookup _ _ | .get _ | .contains _ => true
  | _ => false

/-- Whether calls use no handle but those of scopes added before, where so many were added. -/
def usesKnown (count : Nat) : List TableCall → Bool
  | [] => true
  | call :: calls =>
    call.handle?.all (· < count) && usesKnown (count + call.label?.toList.length) calls

end TableCall

namespace SymbolTable

/-- Carries out a call. A call that fails leaves the table as it was. -/
def perform (table : SymbolTable) : TableCall → SymbolTable × TableAnswer
  | .add name kind => (table.add name kind, .added table.nextHandle)
  | .define handle symbol place =>
    match table.define handle symbol place with
    | .ok next => (next, .defined)
    | .error error => (table, .refused error)
  | .lookup handle name => (table, .found ((table.scope? handle).bind (·.lookup name)))
  | .discard handle =>
    match table.discard handle with
    | some next => (next, .discarded)
    | none => (table, .unlisted)
  | .get name => (table, .first (table.get? name))
  | .contains name => (table, .held (table.contains name))

/-- Carries out calls one after the other, whether or not they fail. -/
def performAll (table : SymbolTable) (calls : List TableCall) : SymbolTable :=
  calls.foldl (fun table call => (table.perform call).1) table

/-- The calls with their answers. -/
def log (table : SymbolTable) : List TableCall → List Exchange
  | [] => []
  | call :: calls => ⟨call, (table.perform call).2⟩ :: (table.perform call).1.log calls

end SymbolTable

namespace Exchange

/-- The symbol that is defined in a scope with success. -/
def defined? (handle : Handle) : Exchange → Option Symbol
  | ⟨.define other symbol _, .defined⟩ => if other = handle then some symbol else none
  | _ => none

/-- Name and kind of the scopes that were added, each at the position that its handle gives. -/
def added (log : List Exchange) : List (String × ScopeKind) := log.filterMap (·.call.label?)

/-- The symbols that were defined in a scope with success, in order. -/
def defined (log : List Exchange) (handle : Handle) : List Symbol :=
  log.filterMap (defined? handle)

/-- The handles of the scopes that were added and not discarded, in the order of adding. -/
def remaining (log : List Exchange) : List Handle :=
  (List.range (added log).length).filter fun handle => ⟨.discard handle, .discarded⟩ ∉ log

/-- A scope as it was added, with the symbols that were defined in it. -/
def scope? (log : List Exchange) (handle : Handle) : Option Scope :=
  (added log)[handle]?.map fun label => ⟨label.1, label.2, defined log handle⟩

/-- Whether a scope was added under that name. -/
def isNamed (log : List Exchange) (name : String) (handle : Handle) : Bool :=
  (added log)[handle]?.any (·.1 == name)

end Exchange

open Exchange

/-- The answer to a call that a log asks for. -/
def TableCall.expected (log : List Exchange) : TableCall → TableAnswer
  | .add _ _ => .added (added log).length
  | .define handle symbol place =>
    if symbol.name ∈ (defined log handle).map (·.name) then
      .refused (.duplicate symbol.name place)
    else .defined
  | .lookup handle name => .found ((defined log handle).find? (·.name == name))
  | .discard handle => if handle ∈ remaining log then .discarded else .unlisted
  | .get name => .first ((remaining log).find? (isNamed log name))
  | .contains name => .held ((remaining log).any (isNamed log name))

/-- A table is what a log says. -/
structure SymbolTable.Follows (table : SymbolTable) (log : List Exchange) : Prop where
  /-- Each scope, in the table or not, has the symbols that were defined in it. -/
  scopes : table.scopes =
    (added log).mapIdx fun handle label => ⟨label.1, label.2, defined log handle⟩
  order : table.order = remaining log
  distinct : ∀ handle, ((defined log handle).map (·.name)).Nodup
  known : ∀ exchange ∈ log, ∀ handle ∈ exchange.call.handle?, handle < (added log).length

namespace Exchange

section Appending

variable (log : List Exchange) (exchange : Exchange)

@[simp] theorem added_concat :
    added (log ++ [exchange]) = added log ++ exchange.call.label?.toList := by
  rw [added, List.filterMap_append]
  cases h : exchange.call.label? with
  | none => simp [added, h]
  | some label => simp [added, h]

@[simp] theorem defined_concat (handle : Handle) :
    defined (log ++ [exchange]) handle =
      defined log handle ++ (exchange.defined? handle).toList := by
  rw [defined, List.filterMap_append]
  cases h : exchange.defined? handle with
  | none => simp [defined, h]
  | some symbol => simp [defined, h]

end Appending

theorem defined_of_ne {exchange : Exchange} {handle : Handle}
    (h : exchange.call.handle? ≠ some handle) : exchange.defined? handle = none := by
  obtain ⟨call, answer⟩ := exchange
  cases call with
  | define other symbol place =>
      cases answer with
      | defined => exact if_neg fun heq => h (congrArg some heq)
      | _ => rfl
  | _ => rfl

/-- An exchange that changes nothing. -/
structure Silent (exchange : Exchange) : Prop where
  label : exchange.call.label? = none
  defined : ∀ handle, exchange.defined? handle = none
  discarded : ∀ handle, exchange ≠ ⟨.discard handle, .discarded⟩

/-- What is discarded remains no longer. -/
theorem remaining_concat_discarded (log : List Exchange) (handle : Handle) :
    remaining (log ++ [⟨.discard handle, .discarded⟩]) =
      (remaining log).filter (· ≠ handle) := by
  rw [remaining, remaining, added_concat, List.filter_filter]
  simp [TableCall.label?, and_comm, eq_comm]

theorem added_concat_of_none {log : List Exchange} {exchange : Exchange}
    (h : exchange.call.label? = none) : added (log ++ [exchange]) = added log := by
  rw [added_concat, h, Option.toList_none, List.append_nil]

theorem defined_concat_of_none {log : List Exchange} {exchange : Exchange}
    (h : ∀ handle, exchange.defined? handle = none) :
    defined (log ++ [exchange]) = defined log := by
  funext handle
  rw [defined_concat, h, Option.toList_none, List.append_nil]

theorem remaining_concat_of_ne {log : List Exchange} {exchange : Exchange}
    (hlabel : exchange.call.label? = none)
    (h : ∀ handle, exchange ≠ ⟨.discard handle, .discarded⟩) :
    remaining (log ++ [exchange]) = remaining log := by
  rw [remaining, remaining, added_concat_of_none hlabel]
  refine List.filter_congr fun handle _ => ?_
  simp [Ne.symm (h handle)]

/-- What is added remains, unless it was discarded by a handle that was not known yet. -/
theorem remaining_concat_added {log : List Exchange} {name : String} {kind : ScopeKind}
    {answer : TableAnswer} (h : ⟨.discard (added log).length, .discarded⟩ ∉ log) :
    remaining (log ++ [⟨.add name kind, answer⟩]) = remaining log ++ [(added log).length] := by
  have hadded : added (log ++ [⟨.add name kind, answer⟩]) = added log ++ [(name, kind)] :=
    added_concat _ _
  have hother : ∀ handle, (⟨.discard handle, .discarded⟩ : Exchange) ∉
      log ++ [⟨.add name kind, answer⟩] ↔ ⟨.discard handle, .discarded⟩ ∉ log := by simp
  rw [remaining, hadded, List.length_append, List.length_singleton, List.range_succ,
    List.filter_append]
  simp only [hother]
  rw [List.filter_singleton, decide_eq_true h]
  rfl

theorem nodup_remaining (log : List Exchange) : (remaining log).Nodup :=
  List.nodup_range.filter _

end Exchange

namespace SymbolTable

/-- The table where a scope, which is given, has one symbol more. -/
def adding (table : SymbolTable) (handle : Handle) (scope : Scope) (symbol : Symbol) :
    SymbolTable :=
  { table with
    scopes := table.scopes.set handle { scope with symbols := scope.symbols ++ [symbol] } }

namespace Follows

variable {table : SymbolTable} {log : List Exchange}

theorem empty : SymbolTable.empty.Follows [] := ⟨rfl, rfl, fun _ => List.nodup_nil, nofun⟩

theorem next_handle (h : table.Follows log) : table.nextHandle = (added log).length := by
  rw [nextHandle, h.scopes, List.length_mapIdx]

theorem scope_eq (h : table.Follows log) (handle : Handle) :
    table.scope? handle = Exchange.scope? log handle := by
  rw [SymbolTable.scope?, h.scopes, List.getElem?_mapIdx, Exchange.scope?]

/-- The scopes in the table are those that remain, as they were added and defined in. -/
theorem listed_eq (h : table.Follows log) :
    table.listed = (remaining log).filterMap (Exchange.scope? log) := by
  rw [listed, h.order, funext h.scope_eq]

/-- The scope of a known handle has the symbols that were defined in it. -/
theorem exists_scope (h : table.Follows log) {handle : Handle}
    (hknown : handle < (added log).length) :
    ∃ scope, table.scope? handle = some scope ∧ scope.symbols = defined log handle := by
  rw [h.scope_eq, Exchange.scope?, List.getElem?_eq_getElem hknown]
  exact ⟨_, rfl, rfl⟩

theorem get_eq (h : table.Follows log) (name : String) :
    table.get? name = (remaining log).find? (isNamed log name) := by
  have hnamed : (fun handle => (table.scope? handle).any (·.name == name)) =
      isNamed log name := by
    funext handle
    rw [h.scope_eq, Exchange.scope?, Option.any_map, isNamed]
  rw [get?, h.order, hnamed]

/-- A definition fails if the scope has a symbol of that name. -/
theorem define_of_mem (h : table.Follows log) {handle : Handle} {symbol : Symbol}
    (place : Location) (hmem : symbol.name ∈ (defined log handle).map (·.name))
    (hknown : handle < (added log).length) :
    table.define handle symbol place = .error (.duplicate symbol.name place) := by
  obtain ⟨scope, hscope, hsymbols⟩ := h.exists_scope hknown
  rw [← hsymbols] at hmem
  obtain ⟨taken, htaken⟩ :=
    Option.ne_none_iff_exists'.1 fun hnone => Scope.lookup_eq_none_iff.1 hnone hmem
  rw [define, hscope]
  dsimp only
  rw [Scope.define, htaken]
  rfl

/-- A definition under a free name puts the symbol behind those that the scope has. -/
theorem define_of_not_mem (h : table.Follows log) {handle : Handle} {symbol : Symbol}
    (place : Location) (hmem : symbol.name ∉ (defined log handle).map (·.name))
    (hknown : handle < (added log).length) :
    ∃ scope, table.scope? handle = some scope ∧ scope.symbols = defined log handle ∧
      table.define handle symbol place = .ok (table.adding handle scope symbol) := by
  obtain ⟨scope, hscope, hsymbols⟩ := h.exists_scope hknown
  have hlookup : scope.lookup symbol.name = none := by
    rwa [Scope.lookup_eq_none_iff, hsymbols]
  refine ⟨scope, hscope, hsymbols, ?_⟩
  rw [define, hscope]
  dsimp only
  rw [Scope.define, hlookup]
  rfl

/-- An answer is what the log asks for. -/
theorem answer (h : table.Follows log) {call : TableCall}
    (hknown : ∀ handle ∈ call.handle?, handle < (added log).length) :
    (table.perform call).2 = call.expected log := by
  cases call with
  | add name kind => exact congrArg TableAnswer.added h.next_handle
  | define handle symbol place =>
      have hlt := hknown handle rfl
      rw [perform, TableCall.expected]
      split_ifs with hmem
      · rw [h.define_of_mem place hmem hlt]
      · obtain ⟨scope, -, -, hdefine⟩ := h.define_of_not_mem place hmem hlt
        rw [hdefine]
  | lookup handle name =>
      obtain ⟨scope, hscope, hsymbols⟩ := h.exists_scope (hknown handle rfl)
      rw [perform, hscope, TableCall.expected, ← hsymbols]
      rfl
  | discard handle =>
      rw [perform, discard, TableCall.expected, h.order, List.contains_eq_mem]
      by_cases hmem : handle ∈ remaining log
      · simp [hmem]
      · simp [hmem]
  | get name => exact congrArg TableAnswer.first (h.get_eq name)
  | contains name =>
      rw [perform, SymbolTable.contains, h.get_eq, List.isSome_find?]
      rfl

theorem known_concat (h : table.Follows log) {exchange : Exchange}
    (hlabel : exchange.call.label? = none)
    (hknown : ∀ handle ∈ exchange.call.handle?, handle < (added log).length) :
    ∀ other ∈ log ++ [exchange], ∀ handle ∈ other.call.handle?,
      handle < (added (log ++ [exchange])).length := by
  rw [added_concat_of_none hlabel]
  intro other hother
  rcases List.mem_append.1 hother with hother | hother
  · exact h.known other hother
  · rw [List.mem_singleton.1 hother]
    exact hknown

/-- An exchange that changes nothing leaves the table to follow the log. -/
theorem silent (h : table.Follows log) {exchange : Exchange} (hsilent : exchange.Silent)
    (hknown : ∀ handle ∈ exchange.call.handle?, handle < (added log).length) :
    table.Follows (log ++ [exchange]) where
  scopes := by
    rw [added_concat_of_none hsilent.label, defined_concat_of_none hsilent.defined, h.scopes]
  order := by rw [remaining_concat_of_ne hsilent.label hsilent.discarded, h.order]
  distinct := by
    rw [defined_concat_of_none hsilent.defined]
    exact h.distinct
  known := h.known_concat hsilent.label hknown

/-- A scope that is added is new, so nothing in the log is about it. -/
theorem add (h : table.Follows log) (name : String) (kind : ScopeKind) :
    (table.add name kind).Follows (log ++ [⟨.add name kind, .added table.nextHandle⟩]) := by
  have hfresh : ∀ exchange ∈ log, exchange.call.handle? ≠ some (added log).length := by
    intro exchange hmem hhandle
    exact Nat.lt_irrefl _ (h.known exchange hmem _ hhandle)
  have hadded : added (log ++ [⟨.add name kind, .added table.nextHandle⟩]) =
      added log ++ [(name, kind)] := added_concat _ _
  have hdefined : defined (log ++ [⟨.add name kind, .added table.nextHandle⟩]) = defined log :=
    defined_concat_of_none fun _ => rfl
  have hnone : defined log (added log).length = [] := by
    rw [defined, List.filterMap_eq_nil_iff]
    exact fun exchange hmem => defined_of_ne (hfresh exchange hmem)
  refine ⟨?_, ?_, ?_, ?_⟩
  · rw [hadded, hdefined, List.mapIdx_concat, hnone, ← h.scopes]
    rfl
  · rw [remaining_concat_added fun hmem => hfresh _ hmem rfl, ← h.order, ← h.next_handle]
    rfl
  · rw [hdefined]
    exact h.distinct
  · rw [hadded, List.length_append, List.length_singleton]
    intro exchange hmem handle hhandle
    rcases List.mem_append.1 hmem with hmem | hmem
    · exact Nat.lt_succ_of_lt (h.known exchange hmem handle hhandle)
    · rw [List.mem_singleton.1 hmem] at hhandle
      exact absurd hhandle.symm (Option.some_ne_none _)

/-- A symbol that is defined is in its scope, behind the others, and in no other scope. -/
theorem define (h : table.Follows log) {handle : Handle} {symbol : Symbol} {place : Location}
    {scope : Scope} (hscope : table.scope? handle = some scope)
    (hsymbols : scope.symbols = defined log handle)
    (hmem : symbol.name ∉ (defined log handle).map (·.name))
    (hknown : handle < (added log).length) :
    (table.adding handle scope symbol).Follows
      (log ++ [⟨.define handle symbol place, .defined⟩]) := by
  have hself : defined (log ++ [⟨.define handle symbol place, .defined⟩]) handle =
      defined log handle ++ [symbol] := by
    rw [defined_concat, defined?, if_pos rfl]
    rfl
  have hother : ∀ other, handle ≠ other →
      defined (log ++ [⟨.define handle symbol place, .defined⟩]) other = defined log other := by
    intro other hne
    rw [defined_concat, defined?, if_neg hne]
    exact List.append_nil _
  refine ⟨?_, ?_, fun other => ?_, h.known_concat rfl ?_⟩
  · rw [added_concat_of_none rfl]
    -- only the position of the handle is written to, and only its log has one symbol more
    refine List.ext_getElem? fun other => ?_
    rw [List.getElem?_mapIdx, adding, List.getElem?_set]
    split_ifs with heq hlt
    · subst heq
      rw [h.scope_eq, Exchange.scope?, Option.map_eq_some_iff] at hscope
      obtain ⟨label, hlabel, rfl⟩ := hscope
      rw [hself, hlabel]
      rfl
    · rw [h.scopes, List.length_mapIdx] at hlt
      exact absurd (heq ▸ hknown) hlt
    · rw [h.scopes, List.getElem?_mapIdx, hother other heq]
  · rw [remaining_concat_of_ne rfl (fun _ => by simp)]
    exact h.order
  · by_cases heq : handle = other
    · subst heq
      rw [hself, List.map_append, List.map_singleton, ← List.concat_eq_append]
      exact (h.distinct handle).concat hmem
    · rw [hother other heq]
      exact h.distinct other
  · rintro other ⟨⟩
    exact hknown

/-- A scope that is discarded leaves the table, and no other one does. -/
theorem discard (h : table.Follows log) {handle : Handle}
    (hknown : handle < (added log).length) :
    SymbolTable.Follows { table with order := table.order.erase handle }
      (log ++ [⟨.discard handle, .discarded⟩]) := by
  refine ⟨?_, ?_, ?_, h.known_concat rfl ?_⟩
  · rw [added_concat_of_none rfl, defined_concat_of_none fun _ => rfl]
    exact h.scopes
  · rw [remaining_concat_discarded, h.order, (nodup_remaining log).erase_eq_filter]
    refine List.filter_congr fun other _ => ?_
    rw [bne, beq_eq_decide, ← decide_not]
  · rw [defined_concat_of_none fun _ => rfl]
    exact h.distinct
  · rintro other ⟨⟩
    exact hknown

/-- After a call the table is what the log says with this call. -/
theorem perform (h : table.Follows log) {call : TableCall}
    (hknown : ∀ handle ∈ call.handle?, handle < (added log).length) :
    (table.perform call).1.Follows (log ++ [⟨call, (table.perform call).2⟩]) := by
  have hsilent : ∀ answer, Exchange.Silent ⟨call, answer⟩ →
      table.Follows (log ++ [⟨call, answer⟩]) := fun _ hcall => h.silent hcall hknown
  cases call with
  | add name kind => exact h.add name kind
  | define handle symbol place =>
      have hlt := hknown handle rfl
      rw [SymbolTable.perform]
      by_cases hmem : symbol.name ∈ (defined log handle).map (·.name)
      · rw [h.define_of_mem place hmem hlt]
        exact hsilent _ ⟨rfl, fun _ => rfl, fun _ => by simp⟩
      · obtain ⟨scope, hscope, hsymbols, hdefine⟩ := h.define_of_not_mem place hmem hlt
        rw [hdefine]
        exact h.define hscope hsymbols hmem hlt
  | discard handle =>
      rw [SymbolTable.perform, SymbolTable.discard]
      by_cases hmem : table.order.contains handle = true
      · rw [if_pos hmem]
        exact h.discard (hknown handle rfl)
      · rw [if_neg hmem]
        exact hsilent _ ⟨rfl, fun _ => rfl, fun _ => by simp⟩
  | lookup | get | contains => exact hsilent _ ⟨rfl, fun _ => rfl, fun _ => by simp⟩

/-- After any calls the table is what the log says with them, and each of them was answered as the
log before it asks for. -/
theorem perform_all (h : table.Follows log) {calls : List TableCall}
    (hcalls : TableCall.usesKnown (added log).length calls = true) :
    (table.performAll calls).Follows (log ++ table.log calls) ∧
      ∀ before exchange after, table.log calls = before ++ exchange :: after →
        exchange.answer = exchange.call.expected (log ++ before) := by
  -- the log grows at its end while the calls are used up from the front
  induction calls generalizing table log with
  | nil =>
      refine ⟨by simpa [performAll, SymbolTable.log] using h, fun before exchange after hlog => ?_⟩
      exact absurd hlog.symm (List.append_ne_nil_of_right_ne_nil _ (List.cons_ne_nil _ _))
  | cons call calls ih =>
      rw [TableCall.usesKnown, Bool.and_eq_true] at hcalls
      obtain ⟨hhandle, hrest⟩ := hcalls
      have hknown : ∀ handle ∈ call.handle?, handle < (added log).length := by
        intro handle hmem
        rw [Option.mem_def.1 hmem, Option.all_some, decide_eq_true_eq] at hhandle
        exact hhandle
      rw [← List.length_append] at hrest
      obtain ⟨hfollows, hanswers⟩ := ih (h.perform hknown) (by rwa [added_concat])
      rw [List.append_assoc] at hfollows
      refine ⟨hfollows, fun before exchange after hlog => ?_⟩
      cases before with
      | nil =>
          obtain ⟨rfl, -⟩ := List.cons.inj hlog
          rw [List.append_nil]
          exact h.answer hknown
      | cons first before =>
          obtain ⟨rfl, htail⟩ := List.cons.inj hlog
          have hanswer := hanswers before exchange after htail
          rwa [List.append_assoc] at hanswer

/-- What is looked up is the symbol that was defined with success under that name. -/
theorem lookup_iff (h : table.Follows log) {handle : Handle} {scope : Scope}
    (hscope : table.scope? handle = some scope) (name : String) (symbol : Symbol) :
    scope.lookup name = some symbol ↔ symbol ∈ defined log handle ∧ symbol.name = name := by
  rw [h.scope_eq, Exchange.scope?, Option.map_eq_some_iff] at hscope
  obtain ⟨label, -, rfl⟩ := hscope
  constructor
  · intro hlookup
    exact ⟨List.mem_of_find?_eq_some hlookup, by simpa using List.find?_some hlookup⟩
  · rintro ⟨hmem, rfl⟩
    obtain ⟨other, hother⟩ : ∃ other, (defined log handle).find? (·.name == symbol.name) =
        some other := by
      rw [← Option.isSome_iff_exists, List.find?_isSome]
      exact ⟨symbol, hmem, beq_self_eq_true _⟩
    have hname : other.name = symbol.name := by simpa using List.find?_some hother
    have hsame : other = symbol :=
      List.inj_on_of_nodup_map (h.distinct handle) (List.mem_of_find?_eq_some hother) hmem hname
    rw [← hsame] at hother ⊢
    exact hother

end Follows

end SymbolTable

/-- What a call leaves alone in a table. -/
structure TableCall.Keeps (call : TableCall) (table : SymbolTable) : Prop where
  failed : (table.perform call).2.failed = true → (table.perform call).1 = table
  asked : call.asks = true → (table.perform call).1 = table
  /-- A scope that is not called is as it was, in the table or out of it. -/
  others : ∀ other, other < table.nextHandle → call.handle? ≠ some other →
    (table.perform call).1.scope? other = table.scope? other ∧
      (other ∈ (table.perform call).1.order ↔ other ∈ table.order)
  defined : ∀ handle symbol place, call = .define handle symbol place →
    (table.perform call).1.order = table.order
  discarded : ∀ handle, call = .discard handle → (table.perform call).1.scopes = table.scopes

namespace SymbolTable

variable {table next : SymbolTable} {handle : Handle}

/-- A definition changes its own scope only. -/
theorem eq_of_define {symbol : Symbol} {place : Location}
    (h : table.define handle symbol place = .ok next) :
    next.order = table.order ∧
      ∀ other, handle ≠ other → next.scope? other = table.scope? other := by
  rw [define] at h
  split at h
  · cases h
    exact ⟨rfl, fun _ _ => rfl⟩
  · next scope _ =>
    cases hdefine : scope.define symbol place with
    | error => simp [hdefine, Except.map] at h
    | ok changed =>
        rw [hdefine] at h
        cases h
        exact ⟨rfl, fun other hne => List.getElem?_set_ne hne⟩

/-- Discarding changes the order only, and leaves all others in it. -/
theorem eq_of_discard (h : table.discard handle = some next) :
    next.scopes = table.scopes ∧
      ∀ other, handle ≠ other → (other ∈ next.order ↔ other ∈ table.order) := by
  rw [discard] at h
  split at h
  · cases h
    exact ⟨rfl, fun other hne => List.mem_erase_of_ne hne.symm⟩
  · cases h

/-- A call that changes nothing leaves everything alone. -/
theorem unchanged {call : TableCall} (h : (table.perform call).1 = table) : call.Keeps table := by
  constructor
  · exact fun _ => h
  · exact fun _ => h
  · rw [h]
    exact fun _ _ _ => ⟨rfl, Iff.rfl⟩
  · rw [h]
    exact fun _ _ _ _ => rfl
  · rw [h]
    exact fun _ _ => rfl

theorem keeps_define (table : SymbolTable) (handle : Handle) (symbol : Symbol)
    (place : Location) : TableCall.Keeps (.define handle symbol place) table := by
  cases hdefine : table.define handle symbol place with
  | error error =>
      have hperform : table.perform (.define handle symbol place) = (table, .refused error) := by
        rw [perform, hdefine]
      exact unchanged (by rw [hperform])
  | ok next =>
      have hperform : table.perform (.define handle symbol place) = (next, .defined) := by
        rw [perform, hdefine]
      obtain ⟨horder, hscopes⟩ := eq_of_define hdefine
      refine ⟨fun h => ?_, fun h => ?_, fun other _ hother => ?_, fun _ _ _ _ => ?_, by simp⟩
      · rw [hperform] at h
        exact absurd h Bool.false_ne_true
      · exact absurd h Bool.false_ne_true
      · rw [hperform, horder]
        exact ⟨hscopes other fun heq => hother (congrArg some heq), Iff.rfl⟩
      · rw [hperform, horder]

theorem keeps_discard (table : SymbolTable) (handle : Handle) :
    TableCall.Keeps (.discard handle) table := by
  cases hdiscard : table.discard handle with
  | none =>
      have hperform : table.perform (.discard handle) = (table, .unlisted) := by
        rw [perform, hdiscard]
      exact unchanged (by rw [hperform])
  | some next =>
      have hperform : table.perform (.discard handle) = (next, .discarded) := by
        rw [perform, hdiscard]
      obtain ⟨hscopes, horder⟩ := eq_of_discard hdiscard
      refine ⟨fun h => ?_, fun h => ?_, fun other _ hother => ?_, by simp, fun _ _ => ?_⟩
      · rw [hperform] at h
        exact absurd h Bool.false_ne_true
      · exact absurd h Bool.false_ne_true
      · rw [hperform, scope?, scope?, hscopes]
        exact ⟨rfl, horder other fun heq => hother (congrArg some heq)⟩
      · rw [hperform, hscopes]

/-- Whatever is called, the rest is left alone. -/
theorem keeps (table : SymbolTable) (call : TableCall) : call.Keeps table := by
  cases call with
  | add name kind =>
      refine ⟨fun h => ?_, fun h => ?_, fun other hlt _ => ⟨?_, ?_⟩, by simp, by simp⟩
      · exact absurd h Bool.false_ne_true
      · exact absurd h Bool.false_ne_true
      · exact List.getElem?_append_left hlt
      · rw [perform, add, List.mem_append, List.mem_singleton]
        exact or_iff_left (Nat.ne_of_lt hlt)
  | define handle symbol place => exact keeps_define table handle symbol place
  | discard handle => exact keeps_discard table handle
  | lookup | get | contains => exact unchanged rfl

end SymbolTable

/-- Whatever is called on a fresh table, with handles of scopes that are in it or were discarded and
whether or not calls fail, the table and its scopes are what the log of the calls says, and each
call is answered as the log before it asks for. A lookup finds the one symbol that was defined with
success under a name. No call changes what it is not about. -/
theorem table_follows_log {calls : List TableCall} (h : TableCall.usesKnown 0 calls = true) :
    (SymbolTable.empty.performAll calls).Follows (SymbolTable.empty.log calls) ∧
      (SymbolTable.empty.performAll calls).listed =
        (remaining (SymbolTable.empty.log calls)).filterMap
          (Exchange.scope? (SymbolTable.empty.log calls)) ∧
      (∀ before exchange after, SymbolTable.empty.log calls = before ++ exchange :: after →
        exchange.answer = exchange.call.expected before) ∧
      (∀ handle scope, (SymbolTable.empty.performAll calls).scope? handle = some scope →
        ∀ name symbol, scope.lookup name = some symbol ↔
          symbol ∈ defined (SymbolTable.empty.log calls) handle ∧ symbol.name = name) ∧
      ∀ call : TableCall, call.Keeps (SymbolTable.empty.performAll calls) := by
  obtain ⟨hfollows, hanswers⟩ := SymbolTable.Follows.empty.perform_all h
  rw [List.nil_append] at hfollows
  refine ⟨hfollows, hfollows.listed_eq, hanswers, fun handle scope hscope => ?_, ?_⟩
  · exact hfollows.lookup_iff hscope
  · exact SymbolTable.keeps _

/-- Two scopes of one name. The first is discarded twice and used on, and so is the second after a
definition of it was refused. -/
def callsOfNamesakes : List TableCall :=
  [.add "dup" .block, .add "dup" .block, .define 1 ⟨"x", "INT", none⟩ .unknown, .get "dup",
    .discard 0, .discard 0, .define 0 ⟨"y", "INT", none⟩ .unknown,
    .define 1 ⟨"x", "FLOAT", none⟩ .unknown, .lookup 1 "x", .get "dup", .lookup 0 "y",
    .discard 1, .contains "dup", .lookup 1 "x"]

/-- Namesakes are told apart, and discarded scopes can be used. -/
theorem table_follows_log_of_namesakes :
    TableCall.usesKnown 0 callsOfNamesakes = true ∧
      (SymbolTable.empty.performAll callsOfNamesakes).Follows
        (SymbolTable.empty.log callsOfNamesakes) ∧
      (SymbolTable.empty.log callsOfNamesakes).map (·.answer) =
        [.added 0, .added 1, .defined, .first (some 0), .discarded, .unlisted, .defined,
          .refused (.duplicate "x" .unknown), .found (some ⟨"x", "INT", none⟩), .first (some 1),
          .found (some ⟨"y", "INT", none⟩), .discarded, .held false,
          .found (some ⟨"x", "INT", none⟩)] :=
  ⟨by decide, (table_follows_log (by decide)).1, by decide⟩

end Little
