import Little.Proofs.Scope.Clash
import Little.Proofs.Scope.Walk

/-!
# What a region does to the builder

`Extends builder next regions` says what the regions of a part of a program leave behind: a scope
for each region behind the scopes that were there, the handles of those that stay in the table, and
as many numbers more as there are numbered regions. Which scope is the current one is left open. A
region is entered (`Inside`), its items are declared (`Inside.declare_all`), the regions inside
extend the builder further, and it is closed (`Inside.close`).

`Meets` adds what happens if a body of one of the regions declares a name twice: the walk halts at
the first such name.
-/

namespace Little

/-- The declaration of an item. -/
def Item.declaration (item : Item) : Declaration := ⟨item.symbol, item.place⟩

/-- What stops the walk at an item whose name is taken. -/
def Item.halt (item : Item) : Halt := .semantic (.duplicate item.name item.place)

namespace Builder

theorem declare_all_append (builder : Builder) (front back : List (Option Declaration)) :
    builder.declareAll (front ++ back) =
      (builder.declareAll front).andThen (·.declareAll back) := by
  induction front generalizing builder with
  | nil => rfl
  | cons declaration front ih =>
      cases declaration with
      | none => rfl
      | some declaration =>
          simp only [List.cons_append, declareAll, Outcome.and_then_assoc]
          exact congrArg _ (funext ih)

end Builder

namespace Scope

/-- A scope with more symbols. -/
def declaring (scope : Scope) (items : List Item) : Scope :=
  { scope with symbols := scope.symbols ++ items.map Item.symbol }

theorem lookup_eq_none_iff {scope : Scope} {name : String} :
    scope.lookup name = none ↔ name ∉ scope.symbols.map (·.name) := by
  simp [lookup, List.find?_eq_none]

end Scope

section Declarations

variable {builder : Builder} {front : List Scope} {scope : Scope}

/-- A declaration in the scope added last adds a symbol to it, if its name is not taken. -/
theorem Builder.declare_last (hscopes : builder.table.scopes = front ++ [scope])
    (hcurrent : builder.current = front.length) (item : Item) :
    (item.name ∉ scope.symbols.map (·.name) → ∃ notices,
      builder.declare item.symbol item.place =
        .done { builder with
          table := ⟨front ++ [scope.declaring [item]], builder.table.order⟩
          notices := notices }) ∧
    (item.name ∈ scope.symbols.map (·.name) → ∃ next,
      builder.declare item.symbol item.place = ⟨next, some item.halt⟩) := by
  have hscope : builder.table.scope? builder.current = some scope := by
    rw [SymbolTable.scope?, hscopes, hcurrent, List.getElem?_concat_length]
  constructor
  · intro hfresh
    have hdefine : builder.table.define builder.current item.symbol item.place =
        .ok ⟨front ++ [scope.declaring [item]], builder.table.order⟩ := by
      have hlookup : scope.lookup item.symbol.name = none := Scope.lookup_eq_none_iff.2 hfresh
      simp only [SymbolTable.define, hscope, Scope.define, hlookup, Except.map]
      rw [hscopes, hcurrent, List.set_append_right _ _ (Nat.le_refl _), Nat.sub_self]
      rfl
    unfold Builder.declare
    rw [hdefine]
    exact ⟨_, rfl⟩
  · intro htaken
    have hdefine : builder.table.define builder.current item.symbol item.place =
        .error (.duplicate item.name item.place) := by
      obtain ⟨symbol, hlookup⟩ : ∃ symbol, scope.lookup item.symbol.name = some symbol := by
        rw [← Option.ne_none_iff_exists']
        exact fun hnone => Scope.lookup_eq_none_iff.1 hnone htaken
      simp only [SymbolTable.define, hscope, Scope.define, hlookup, Except.map]
      rfl
    unfold Builder.declare
    rw [hdefine]
    exact ⟨_, rfl⟩

/-- Declarations in the scope added last add their symbols to it, or halt at the first whose name
is taken. -/
theorem Builder.declare_all_last (hscopes : builder.table.scopes = front ++ [scope])
    (hcurrent : builder.current = front.length) (items : List Item) :
    (firstRepeat (scope.symbols.map (·.name)) items = none → ∃ notices,
      builder.declareAll (items.map (some ·.declaration)) =
        .done { builder with
          table := ⟨front ++ [scope.declaring items], builder.table.order⟩
          notices := notices }) ∧
    (∀ item, firstRepeat (scope.symbols.map (·.name)) items = some item → ∃ next,
      builder.declareAll (items.map (some ·.declaration)) = ⟨next, some item.halt⟩) := by
  induction items generalizing builder scope with
  | nil =>
      refine ⟨fun _ => ⟨builder.notices, ?_⟩, fun item h => absurd h.symm (Option.some_ne_none _)⟩
      simp [declareAll, Scope.declaring, ← hscopes]
  | cons item items ih =>
      obtain ⟨hfresh, htaken⟩ := builder.declare_last hscopes hcurrent item
      have hcons : builder.declareAll ((item :: items).map (some ·.declaration)) =
          (builder.declare item.symbol item.place).andThen
            (·.declareAll (items.map (some ·.declaration))) := rfl
      rw [firstRepeat, hcons]
      by_cases hmem : item.name ∈ scope.symbols.map (·.name)
      · obtain ⟨next, hnext⟩ := htaken hmem
        rw [if_pos hmem, hnext]
        refine ⟨fun h => absurd h (Option.some_ne_none item), fun found hfound => ⟨next, ?_⟩⟩
        rw [← Option.some.inj hfound]
        rfl
      · obtain ⟨notices, hnext⟩ := hfresh hmem
        have hnames : (scope.declaring [item]).symbols.map (·.name) =
            scope.symbols.map (·.name) ++ [item.name] := by
          simp [Scope.declaring, Item.symbol]
        have hscope : (scope.declaring [item]).declaring items =
            scope.declaring (item :: items) := by
          simp [Scope.declaring]
        -- the name declared is one of those that later items must not repeat
        rw [if_neg hmem, ← hnames, hnext, ← hscope]
        exact @ih { builder with
          table := ⟨front ++ [scope.declaring [item]], builder.table.order⟩
          notices := notices } (scope.declaring [item]) rfl hcurrent

end Declarations

namespace Region

/-- The scope that a region opens, whether or not it stays in the table. -/
def opened (number : Nat) : Region → Scope
  | .function ident _ => ⟨ident.text, .function, []⟩
  | .statements | .block _ => ⟨blockName number, .block, []⟩

/-- The number of the next region behind a region. -/
def next (number : Nat) (region : Region) : Nat :=
  if region.isNumbered then number + 1 else number

/-- All scopes that regions open, with what is declared in them. -/
def scopesFrom (number : Nat) : List Region → List Scope
  | [] => []
  | region :: regions =>
    (region.opened number).declaring region.items :: scopesFrom (region.next number) regions

/-- The number of the next region behind several. -/
def nextAll (number : Nat) : List Region → Nat
  | [] => number
  | region :: regions => nextAll (region.next number) regions

theorem scopes_from_append (number : Nat) (front back : List Region) :
    scopesFrom number (front ++ back) =
      scopesFrom number front ++ scopesFrom (nextAll number front) back := by
  induction front generalizing number with
  | nil => rfl
  | cons region front ih => simp [scopesFrom, nextAll, ih]

theorem next_all_append (number : Nat) (front back : List Region) :
    nextAll number (front ++ back) = nextAll (nextAll number front) back := by
  induction front generalizing number with
  | nil => rfl
  | cons region front ih => exact ih (region.next number)

/-- The first item of some regions that repeats a name of its own body. -/
def clash (regions : List Region) : Option Item :=
  regions.findSome? fun region => firstRepeat [] region.items

theorem clash_append (front back : List Region) :
    clash (front ++ back) = (clash front).or (clash back) :=
  List.findSome?_append

end Region

theorem Outline.first_clash_eq (outline : Outline) :
    outline.firstClash =
      (firstRepeat [] outline.globals).or (Region.clash outline.regions) := by
  rw [firstClash, bodies, List.findSome?_cons, List.findSome?_map]
  cases firstRepeat [] outline.globals <;> rfl

/-- Whether a scope stays in the table when it is closed. -/
def Scope.stays (scope : Scope) : Bool := !(scope.kind = .block && scope.isEmpty)

/-- The handles of those scopes that stay in the table, where the first has the handle given. -/
def staying (handle : Nat) : List Scope → List Nat
  | [] => []
  | scope :: scopes =>
    if scope.stays then handle :: staying (handle + 1) scopes else staying (handle + 1) scopes

theorem staying_append (handle : Nat) (front back : List Scope) :
    staying handle (front ++ back) =
      staying handle front ++ staying (handle + front.length) back := by
  induction front generalizing handle with
  | nil => rfl
  | cons scope front ih =>
      have hlength : handle + (scope :: front).length = handle + 1 + front.length := by
        rw [List.length_cons]
        omega
      rw [List.cons_append, staying, staying, ih, hlength]
      split <;> rfl

theorem le_of_mem_staying {handle other : Nat} {scopes : List Scope}
    (h : other ∈ staying handle scopes) : handle ≤ other ∧ other < handle + scopes.length := by
  induction scopes generalizing handle with
  | nil => exact absurd h List.not_mem_nil
  | cons scope scopes ih =>
      rw [staying] at h
      rw [List.length_cons]
      split at h
      · rcases List.mem_cons.1 h with rfl | h
        · omega
        · have := ih h
          omega
      · have := ih h
        omega

/-- The scopes that are looked up by these handles are those that stay. -/
theorem filter_map_staying (front scopes : List Scope) :
    (staying front.length scopes).filterMap ((front ++ scopes)[·]?) =
      scopes.filter Scope.stays := by
  induction scopes generalizing front with
  | nil => rfl
  | cons scope scopes ih =>
      have hih := ih (front ++ [scope])
      rw [List.length_append, List.length_singleton, List.append_assoc,
        List.singleton_append] at hih
      rw [staying, List.filter_cons]
      split
      · rw [List.filterMap_cons, hih, List.getElem?_append_right (Nat.le_refl _), Nat.sub_self]
        rfl
      · exact hih

namespace Builder

/-- The handles in the table are handles of scopes. -/
def Listed (builder : Builder) : Prop :=
  ∀ handle ∈ builder.table.order, handle < builder.table.scopes.length

/-- `Extends builder next regions` says that `next` is what the regions leave of `builder`, whatever
the current scope. -/
structure Extends (builder next : Builder) (regions : List Region) : Prop where
  scopes : next.table.scopes =
    builder.table.scopes ++ Region.scopesFrom builder.nextBlock regions
  order : next.table.order = builder.table.order ++
    staying builder.table.scopes.length (Region.scopesFrom builder.nextBlock regions)
  nextBlock : next.nextBlock = Region.nextAll builder.nextBlock regions
  opened : next.opened = builder.opened

/-- `Inside builder region items next` says that in `next` a region was entered from `builder` and
the items declared in it. -/
structure Inside (builder : Builder) (region : Region) (items : List Item) (next : Builder) :
    Prop where
  scopes : next.table.scopes =
    builder.table.scopes ++ [(region.opened builder.nextBlock).declaring items]
  order : next.table.order = builder.table.order ++ [builder.table.scopes.length]
  nextBlock : next.nextBlock = region.next builder.nextBlock
  opened : next.opened = builder.table.scopes.length :: builder.opened
  current : next.current = builder.table.scopes.length

variable {builder inner next last : Builder} {region : Region} {regions more : List Region}

theorem Extends.refl (builder : Builder) : builder.Extends builder [] :=
  ⟨(List.append_nil _).symm, (List.append_nil _).symm, rfl, rfl⟩

theorem Extends.trans (h : builder.Extends next regions) (hmore : next.Extends last more) :
    builder.Extends last (regions ++ more) := by
  constructor
  · rw [hmore.scopes, h.scopes, h.nextBlock, Region.scopes_from_append, List.append_assoc]
  · rw [hmore.order, h.order, h.scopes, h.nextBlock, Region.scopes_from_append, staying_append,
      List.length_append, List.append_assoc]
  · rw [hmore.nextBlock, h.nextBlock, Region.next_all_append]
  · rw [hmore.opened, h.opened]

theorem Extends.listed (h : builder.Extends next regions) (hlisted : builder.Listed) :
    next.Listed := by
  intro handle hmem
  rw [h.order, List.mem_append] at hmem
  rw [h.scopes, List.length_append]
  rcases hmem with hold | hnew
  · exact Nat.lt_add_right _ (hlisted handle hold)
  · exact (le_of_mem_staying hnew).2

theorem Inside.listed (h : builder.Inside region items next) (hlisted : builder.Listed) :
    next.Listed := by
  intro handle hmem
  rw [h.order, List.mem_append, List.mem_singleton] at hmem
  rw [h.scopes, List.length_append]
  rcases hmem with hold | rfl
  · exact Nat.lt_add_right _ (hlisted handle hold)
  · exact Nat.lt_succ_self _

theorem inside_open_block (builder : Builder) (hregion : region.isNumbered = true) :
    builder.Inside region [] builder.openBlock := by
  cases region with
  | function => exact absurd hregion Bool.false_ne_true
  | statements | block => exact ⟨rfl, rfl, rfl, rfl, rfl⟩

theorem inside_open_function (builder : Builder) (ident : Token) (items : List Item) :
    builder.Inside (.function ident items) [] (builder.openScope ident.text .function) :=
  ⟨rfl, rfl, rfl, rfl, rfl⟩

/-- A region that was entered and in which everything was declared is closed. -/
theorem Inside.close (h : builder.Inside region region.items inner) (hlisted : builder.Listed)
    (hregions : inner.Extends last regions) :
    ∃ next, last.close = .done next ∧ builder.Extends next (region :: regions) := by
  have hopened := hregions.opened.trans h.opened
  have hscopes : last.table.scopes = builder.table.scopes ++
      Region.scopesFrom builder.nextBlock (region :: regions) := by
    rw [hregions.scopes, h.scopes, h.nextBlock, List.append_assoc]
    rfl
  have horder : last.table.order = builder.table.order ++ builder.table.scopes.length ::
      staying (builder.table.scopes.length + 1)
        (Region.scopesFrom (region.next builder.nextBlock) regions) := by
    rw [hregions.order, h.order, h.scopes, h.nextBlock, List.append_assoc, List.length_append]
    rfl
  have hnextBlock : last.nextBlock = Region.nextAll builder.nextBlock (region :: regions) := by
    rw [hregions.nextBlock, h.nextBlock]
    rfl
  have hscope : last.table.scope? builder.table.scopes.length =
      some ((region.opened builder.nextBlock).declaring region.items) := by
    rw [SymbolTable.scope?, hscopes, List.getElem?_append_right (Nat.le_refl _), Nat.sub_self]
    rfl
  have hempty : isEmptyBlock { last with opened := builder.opened } builder.table.scopes.length =
      !((region.opened builder.nextBlock).declaring region.items).stays := by
    unfold isEmptyBlock Scope.stays
    rw [hscope, Option.any_some, Bool.not_not]
  unfold Builder.close
  simp only [hopened, hempty]
  by_cases hstays : ((region.opened builder.nextBlock).declaring region.items).stays = true
  · rw [hstays, Bool.not_true, if_neg Bool.false_ne_true]
    refine ⟨_, rfl, hscopes, ?_, hnextBlock, rfl⟩
    show last.table.order = _
    rw [horder, Region.scopesFrom, staying, if_pos hstays]
  · -- a block without symbols leaves the table, where its handle stands once
    rw [Bool.not_eq_true] at hstays
    have hfresh : builder.table.scopes.length ∉ builder.table.order := fun hmem =>
      Nat.lt_irrefl _ (hlisted _ hmem)
    have hcontains : last.table.order.contains builder.table.scopes.length = true := by
      rw [horder]
      simp
    have hdiscard : last.table.discard builder.table.scopes.length =
        some { last.table with
          order := last.table.order.erase builder.table.scopes.length } := by
      rw [SymbolTable.discard, if_pos hcontains]
    rw [hstays, Bool.not_false, if_pos rfl, hdiscard]
    refine ⟨_, rfl, hscopes, ?_, hnextBlock, rfl⟩
    show last.table.order.erase builder.table.scopes.length = _
    rw [horder, List.erase_append_right _ hfresh, List.erase_cons_head, Region.scopesFrom, staying,
      if_neg (ne_true_of_eq_false hstays)]

/-- Items declared in a region that was entered add to those declared before, or halt the walk at
the first that repeats a name. -/
theorem Inside.declare_all (h : builder.Inside region [] inner) (items : List Item) :
    (firstRepeat [] items = none → ∃ next,
      inner.declareAll (items.map (some ·.declaration)) = .done next ∧
        builder.Inside region items next) ∧
    (∀ item, firstRepeat [] items = some item → ∃ next,
      inner.declareAll (items.map (some ·.declaration)) = ⟨next, some item.halt⟩) := by
  have hnames : ((region.opened builder.nextBlock).declaring []).symbols.map (·.name) = [] := by
    cases region <;> rfl
  obtain ⟨hnone, hsome⟩ := inner.declare_all_last h.scopes h.current items
  rw [hnames] at hnone hsome
  refine ⟨fun hrepeat => ?_, hsome⟩
  obtain ⟨notices, hdone⟩ := hnone hrepeat
  refine ⟨_, hdone, ?_, h.order, h.nextBlock, h.opened, h.current⟩
  cases region <;> rfl

/-- `Meets builder regions outcome` says that the outcome of a walk is what the regions walked
through lead to: they extend the builder, or the first name repeated in one of them halts it. -/
inductive Meets (builder : Builder) (regions : List Region) : Outcome → Prop where
  | done {next : Builder} :
      Region.clash regions = none → builder.Extends next regions →
      Meets builder regions (.done next)
  | halted (next : Builder) {item : Item} :
      Region.clash regions = some item → Meets builder regions ⟨next, some item.halt⟩

theorem Meets.refl (builder : Builder) : builder.Meets [] (.done builder) :=
  .done rfl (.refl builder)

theorem Meets.and_then {outcome : Outcome} {further : Builder → Outcome}
    (h : builder.Meets regions outcome)
    (hmore : ∀ next, builder.Extends next regions → next.Meets more (further next)) :
    builder.Meets (regions ++ more) (outcome.andThen further) := by
  cases h with
  | @done next hclash hnext =>
      rw [Outcome.done_and_then]
      generalize houtcome : further next = result
      have hresult := hmore next hnext
      rw [houtcome] at hresult
      cases hresult with
      | done hclash' hlast =>
          exact .done (by rw [Region.clash_append, hclash, hclash', Option.or_none])
            (hnext.trans hlast)
      | halted last hclash' =>
          exact .halted last (by rw [Region.clash_append, hclash, hclash', Option.none_or])
  | halted next hclash =>
      exact .halted next (by rw [Region.clash_append, hclash, Option.some_or])

/-- A region that was entered is declared in, walked through and closed. -/
theorem Inside.meets {further : Builder → Outcome} (h : builder.Inside region [] inner)
    (hlisted : builder.Listed)
    (hfurther : ∀ next, builder.Inside region region.items next →
      next.Meets regions (further next)) :
    builder.Meets (region :: regions)
      (((inner.declareAll (region.items.map (some ·.declaration))).andThen further).andThen
        Builder.close) := by
  have hclash : Region.clash (region :: regions) =
      (firstRepeat [] region.items).or (Region.clash regions) := by
    rw [Region.clash, List.findSome?_cons]
    cases firstRepeat [] region.items <;> rfl
  obtain ⟨hnone, hsome⟩ := h.declare_all region.items
  cases hrepeat : firstRepeat [] region.items with
  | some item =>
      obtain ⟨next, hnext⟩ := hsome item hrepeat
      rw [hnext]
      exact .halted next (by rw [hclash, hrepeat, Option.some_or])
  | none =>
      obtain ⟨next, hnext, hinside⟩ := hnone hrepeat
      rw [hnext, Outcome.done_and_then]
      generalize houtcome : further next = result
      have hresult := hfurther next hinside
      rw [houtcome] at hresult
      cases hresult with
      | done hclash' hlast =>
          obtain ⟨closed, hclosed, hextends⟩ := hinside.close hlisted hlast
          rw [Outcome.done_and_then, hclosed]
          exact .done (by rw [hclash, hrepeat, hclash', Option.or_none]) hextends
      | halted last hclash' =>
          exact .halted last (by rw [hclash, hrepeat, hclash', Option.none_or])

end Builder

end Little
