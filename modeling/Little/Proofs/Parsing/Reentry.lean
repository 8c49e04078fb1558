import Little.Proofs.Grammar.Nodes
import Little.Proofs.Parsing.Attempt
import Little.Proofs.Parsing.Trail

/-!
# Rules inside themselves

No node of a rule stands inside another one unless a token of the text lies between the places
where the two begin, whatever is wrong with the text. `Stands` finds the part and what lies to the
left of it. Nodes that begin before the same token need ever fewer rules to be entered before that
token is passed, the inner one fewer than the outer one (`Fresh.leads`), so they cannot be nodes of
one rule. `Rule.parse_fresh` says so of whatever is read.
-/

namespace Little

open Little.Tree (passedAll)

/-- `Stands trees before part` says that a part stands in a row of trees, however deep, and that
`before` are the trees that lie to the left of it. -/
inductive Stands : List Tree → List Tree → Tree → Prop where
  | here (tree : Tree) (trees : List Tree) : Stands (tree :: trees) [] tree
  | later (tree : Tree) {trees before : List Tree} {part : Tree} :
      Stands trees before part → Stands (tree :: trees) (tree :: before) part
  | inside (rule : Rule) (start : Token) (stop : Option Token) (trees : List Tree)
      {children before : List Tree} {part : Tree} :
      Stands children before part →
      Stands (.node rule start stop children :: trees) before part

/-- The nodes in a row of trees that begin before a token of the kind, all from the first one on,
need no more than `bound` rules to be entered until it is passed. -/
def Leads (kind : Kind) (bound : Nat) (trees : List Tree) : Prop :=
  ∀ before part, Stands trees before part → passedAll before = [] → ∀ name,
    part.rule? = some name → (Phrase.rule name).need (name.startsWith kind) ≤ bound

/-- Where a node of a rule stands inside another one, a token lies before it in that other one. -/
def Parted (trees : List Tree) : Prop :=
  ∀ left rule start stop children, Stands trees left (.node rule start stop children) →
    ∀ before part, Stands children before part → part.rule? = some rule → passedAll before ≠ []

/-- What is known of trees that were read where a token of the kind was in view. -/
structure Fresh (kind : Kind) (bound : Nat) (trees : List Tree) : Prop where
  leads : Leads kind bound trees
  parted : Parted trees

/-- Reading a rule to the depth given makes such trees. -/
def FreshTo (depth : Nat) : Prop :=
  ∀ (name : Rule) (stack : List Phrase) (state : State), state.Marked →
    Deep depth ((Phrase.rule name).need (name.startsWith state.current.kind)) state →
    Fresh state.current.kind ((Phrase.rule name).need (name.startsWith state.current.kind))
      [(name.parse depth stack state).1]

theorem stands_append {front back before : List Tree} {part : Tree}
    (h : Stands (front ++ back) before part) :
    Stands front before part ∨ ∃ left, before = front ++ left ∧ Stands back left part := by
  induction front generalizing before with
  | nil => exact .inr ⟨before, rfl, h⟩
  | cons tree front ih =>
      cases h with
      | here => exact .inl (.here _ front)
      | later _ hlater =>
          rcases ih hlater with hfront | ⟨left, rfl, hback⟩
          · exact .inl (.later _ hfront)
          · exact .inr ⟨left, rfl, hback⟩
      | inside rule start stop _ hinside => exact .inl (.inside rule start stop front hinside)

/-- Leaves have no parts but themselves. -/
theorem Stands.rule_of_leaves {trees before : List Tree} {part : Tree}
    (h : Stands trees before part) (hleaves : ∀ tree ∈ trees, tree.isNode = false) :
    part.rule? = none := by
  induction h with
  | here tree => exact Tree.rule_of_leaf (hleaves tree List.mem_cons_self)
  | later _ _ ih => exact ih fun tree hmem => hleaves tree (List.mem_cons_of_mem _ hmem)
  | inside => exact absurd (hleaves _ List.mem_cons_self) nofun

namespace Fresh

variable {kind other : Kind} {bound lower : Nat} {front back trees : List Tree}

theorem of_leaves (h : ∀ tree ∈ trees, tree.isNode = false) : Fresh kind bound trees where
  leads _ _ hpart _ _ hname := by
    rw [hpart.rule_of_leaves h] at hname
    cases hname
  parted _ _ _ _ _ hpart := absurd (hpart.rule_of_leaves h) (Option.some_ne_none _)

theorem nil : Fresh kind bound [] := of_leaves nofun

theorem mono (h : Fresh kind lower trees) (hle : lower ≤ bound) : Fresh kind bound trees :=
  ⟨fun before part hpart hnone name hname =>
    Nat.le_trans (h.leads before part hpart hnone name hname) hle, h.parted⟩

/-- Behind a token nothing begins before the token that was in view at first. -/
theorem append (hfront : Fresh kind bound front) (hback : Fresh other lower back)
    (hleads : passedAll front = [] → Leads kind bound back) : Fresh kind bound (front ++ back) where
  leads before part hpart hnone name hname := by
    rcases stands_append hpart with hinner | ⟨left, rfl, hinner⟩
    · exact hfront.leads before part hinner hnone name hname
    · rw [Tree.passed_all_append, List.append_eq_nil_iff] at hnone
      exact hleads hnone.1 left part hinner hnone.2 name hname
  parted left rule start stop children hnode := by
    rcases stands_append hnode with hinner | ⟨left, -, hinner⟩
    · exact hfront.parted _ rule start stop children hinner
    · exact hback.parted left rule start stop children hinner

theorem append_leaves (h : Fresh kind bound front) (hleaves : ∀ tree ∈ back, tree.isNode = false) :
    Fresh kind bound (front ++ back) :=
  have hback : Fresh kind bound back := .of_leaves hleaves
  h.append hback fun _ => hback.leads

/-- A node needs one rule more than what stands in it, so it is of another rule. -/
theorem node {name : Rule} {children : List Tree}
    (h : Fresh kind (name.body.need (name.startsWith kind)) children) (start : Token)
    (stop : Option Token) :
    Fresh kind ((Phrase.rule name).need (name.startsWith kind))
      [.node name start stop children] where
  leads before part hpart hnone other hother := by
    have hbody := name.need_body_le (name.startsWith kind)
    cases hpart with
    | here =>
        obtain rfl : name = other := Option.some.inj hother
        exact Nat.le_refl _
    | later _ hlater => cases hlater
    | inside _ _ _ _ hinside =>
        have hinner := h.leads before part hinside hnone other hother
        exact Nat.le_succ_of_le (Nat.le_trans hinner hbody)
  parted left rule start stop inner hnode := by
    cases hnode with
    | here =>
        intro before part hpart hrule hnone
        have hinner := h.leads before part hpart hnone name hrule
        exact absurd (Nat.le_trans hinner (name.need_body_le _)) (Nat.not_succ_le_self _)
    | later _ hlater => cases hlater
    | inside _ _ _ _ hinside => exact h.parted left rule start stop inner hinside

end Fresh

namespace Phrase

theorem need_le (certain : Bool) (phrase : Phrase) : phrase.need certain ≤ phrase.need false := by
  induction phrase generalizing certain with
  | empty | token | oneOf | alt | fork | opt | star => exact Nat.le_refl _
  | rule name =>
      have hname : name.need certain ≤ name.need false := by
        cases certain <;> cases name <;> decide
      exact Nat.succ_le_succ hname
  | seq first second ih ih' =>
      have hfalse : (Phrase.seq first second).need false =
          max (first.need false) (second.need false) := rfl
      rw [hfalse, need]
      split
      · exact Nat.le_trans (ih true) (Nat.le_max_left _ _)
      · exact Nat.le_refl _

/-- The first part of a sequence needs no more than the sequence. -/
theorem need_first_le (first second : Phrase) (kind : Kind) :
    first.need (first.startsWith kind) ≤
      (Phrase.seq first second).need ((Phrase.seq first second).startsWith kind) := by
  rw [need]
  split
  · next hsure =>
    rw [Bool.and_eq_true, Bool.not_eq_true', startsWith] at hsure
    obtain ⟨hstarts, hnullable⟩ := hsure
    rw [hnullable, Bool.false_and, Bool.or_false] at hstarts
    rw [hstarts]
  · exact Nat.le_trans (first.need_le _) (Nat.le_max_left _ _)

/-- Where the first part of a sequence is passed over the second needs no more than the sequence. -/
theorem need_second_le {first : Phrase} {kind : Kind} (h : first.startsWith kind = false)
    (second : Phrase) : second.need (second.startsWith kind) ≤
      (Phrase.seq first second).need ((Phrase.seq first second).startsWith kind) := by
  rw [need]
  split
  · next hsure =>
    rw [Bool.and_eq_true, Bool.not_eq_true', startsWith, h, Bool.false_or] at hsure
    rw [hsure.2, Bool.false_and] at hsure
    exact absurd hsure.1 Bool.false_ne_true
  · exact Nat.le_trans (second.need_le _) (Nat.le_max_right _ _)

end Phrase

namespace Trail

variable {state next : State} {trees : List Tree}

/-- Where no token is passed the same one stays in view. -/
theorem ahead_of_passed (h : Trail state trees next) (hmarked : state.Marked)
    (hnone : passedAll trees = []) : next.ahead = state.ahead := by
  rw [h.ahead_eq hmarked, hnone, List.nil_append]

theorem current_of_passed (h : Trail state trees next) (hmarked : state.Marked)
    (hnone : passedAll trees = []) : next.current = state.current := by
  rw [State.current, State.current, h.ahead_of_passed hmarked hnone, h.eof_eq]

theorem length_ahead_lt (h : Trail state trees next) (hmarked : state.Marked)
    (hsome : passedAll trees ≠ []) : next.ahead.length < state.ahead.length := by
  have hpos := List.length_pos_iff.2 hsome
  rw [h.ahead_eq hmarked, List.length_append]
  omega

end Trail

section Runs

variable {depth : Nat} {rule : Rule}

/-- What is made goes on with what is made next, if anything is. -/
theorem Fresh.and_then {kind : Kind} {bound : Nat} {progress : Progress} {next : State → Progress}
    (h : Fresh kind bound progress.made)
    (hnext : progress.stuck = none → ∃ other lower, Fresh other lower (next progress.state).made ∧
      (passedAll progress.made = [] → Leads kind bound (next progress.state).made)) :
    Fresh kind bound (progress.andThen next).made := by
  cases hstuck : progress.stuck with
  | some left => rwa [Progress.andThen, hstuck]
  | none =>
      obtain ⟨other, lower, hback, hleads⟩ := hnext hstuck
      rw [Progress.and_then_of_not_stuck hstuck]
      exact h.append hback hleads

/-- Each round of a repetition but the first begins behind a token. -/
theorem repeat_while_fresh {enters : Kind → Bool} {step : State → Progress} {bound : Nat}
    (rounds : Nat) {state : State} (hmarked : state.Marked)
    (htrail : ∀ next, (step next).IsTrail next)
    (hstep : ∀ next, next.Marked → next.ahead.length ≤ state.ahead.length →
      enters next.current.kind = true → Fresh next.current.kind bound (step next).made ∧
        (step next).state.ahead.length < next.ahead.length) :
    Fresh state.current.kind bound (repeatWhile enters step rounds state).made := by
  induction rounds generalizing state with
  | zero => exact .nil
  | succ rounds ih =>
      rw [repeatWhile]
      split
      · next henters =>
        obtain ⟨hround, hlt⟩ := hstep state hmarked (Nat.le_refl _) henters
        have hrest := ih ((htrail state).marked hmarked) fun next hnext hle =>
          hstep next hnext (Nat.le_trans hle hlt.le)
        refine hround.and_then fun _ => ⟨_, _, hrest, fun hnone => ?_⟩
        rw [(htrail state).ahead_of_passed hmarked hnone] at hlt
        exact absurd hlt (Nat.lt_irrefl _)
      · exact .nil

theorem Phrase.run_fresh (hcall : FreshTo depth) (stack : List Phrase) (phrase follow : Phrase)
    {state : State} (hmarked : state.Marked) (hpredictive : phrase.isPredictive rule follow = true)
    (hends : phrase.isEndFree = true ∨ phrase.ends = true)
    (hdeep : Deep depth (phrase.need (phrase.startsWith state.current.kind)) state) :
    Fresh state.current.kind (phrase.need (phrase.startsWith state.current.kind))
      (phrase.run (Rule.parse depth) stack depth follow state).made := by
  induction phrase using choice_induction generalizing follow state with
  | empty => exact .nil
  | token | oneOf => exact .of_leaves (State.expect_leaves _ _ _ _ _ _)
  | rule name => exact hcall name (follow :: stack) state hmarked hdeep
  | seq first second ih ih' =>
      simp only [isPredictive, Bool.and_eq_true] at hpredictive
      have hfree := is_end_free_of_seq hends
      have hfirst : Deep depth (first.need (first.startsWith state.current.kind)) state :=
        hdeep.mono (Nat.le_refl _) (need_first_le first second _)
      have htrail := reading_trail depth stack first (.seq second follow) state
      rw [run]
      refine ((ih _ hmarked hpredictive.1 (.inl hfree.1) hfirst).mono
        (need_first_le first second _)).and_then fun _ => ?_
      by_cases hnone : passedAll (first.run (Rule.parse depth) stack depth (.seq second follow)
          state).made = []
      · -- the first part passed nothing, so it cannot start with the token in view
        have hahead := htrail.ahead_of_passed hmarked hnone
        have hcurrent := htrail.current_of_passed hmarked hnone
        have hstarts : first.startsWith state.current.kind = false := by
          rw [← Bool.not_eq_true]
          intro hstarts
          have hrank := hdeep.rank_lt (State.ahead_ne_nil hfree.1 hmarked.eof hstarts) first
          have hlt := run_progress Rule.parse_progress stack first (.seq second follow) hfree.1
            hpredictive.1 hrank hmarked.eof hstarts
          rw [hahead] at hlt
          exact absurd hlt (Nat.lt_irrefl _)
        have hle := need_second_le hstarts second
        have hsecond := ih' follow (htrail.marked hmarked) hpredictive.2 hfree.2
          (by rw [hcurrent]; exact hdeep.mono (by rw [hahead]) hle)
        rw [hcurrent] at hsecond
        exact ⟨_, _, hsecond, fun _ => (hsecond.mono hle).leads⟩
      · have hlt := htrail.length_ahead_lt hmarked hnone
        exact ⟨_, _, ih' follow (htrail.marked hmarked) hpredictive.2 hfree.2
          (hdeep.of_lt hlt (second.need_lt _)), fun h => absurd h hnone⟩
  | star body ih =>
      simp only [isPredictive, ends, isEndFree, Bool.and_eq_true, Bool.false_eq_true,
        or_false] at hpredictive hends
      refine repeat_while_fresh depth hmarked (reading_trail depth stack body _) ?_
      intro next hnext hle hbody
      have hdepth : Deep depth (body.need true) next := hdeep.mono hle (Nat.le_refl _)
      have hrank := hdepth.rank_lt (State.ahead_ne_nil hends hnext.eof hbody) body
      have hround := ih (.seq (.star body) follow) hnext hpredictive.2 (.inl hends)
        (by rw [hbody]; exact hdepth)
      rw [hbody] at hround
      exact ⟨hround, run_progress Rule.parse_progress stack body _ hends hpredictive.2 hrank
        hnext.eof hbody⟩
  | choice phrase hchoice ih =>
      have hfree := is_end_free_of_choice hchoice hends
      obtain ⟨next, hrun, hchosen⟩ := run_choice hchoice hpredictive depth stack state
      have htrail := State.sync_trail (.seq phrase follow) state
      rw [hrun]
      refine (Fresh.of_leaves (State.sync_extras _ state).1).and_then fun _ => ?_
      have hprogress := hchosen (state.sync (.seq phrase follow)).state
      generalize next (state.sync (.seq phrase follow)).state = progress at hprogress
      cases hprogress with
      | @branch body after hmem hmoves hahead hbody =>
          have hafter : after.Marked := (htrail.marked hmarked).of_suffix hmoves.eof_eq
            (hahead ▸ List.suffix_rfl)
          have hcurrent : after.current = (state.sync (.seq phrase follow)).state.current := by
            rw [State.current, State.current, hahead, hmoves.eof_eq]
          have hle := need_of_branch hmem (phrase.startsWith state.current.kind)
          have hlength := (State.sync_moves (.seq phrase follow) state).length_ahead_le
          rw [← hahead] at hlength
          have hbranch := ih body hmem follow hafter (is_predictive_of_branch hmem hpredictive)
            (.inl (is_end_free_of_branch hmem hfree))
            (by rw [hbody]; exact hdeep.mono hlength hle)
          refine ⟨_, _, hbranch, fun hnone => ?_⟩
          rw [hbody, hcurrent, htrail.current_of_passed hmarked hnone] at hbranch
          exact (hbranch.mono hle).leads
      | nothing | stuck => exact ⟨state.current.kind, 0, .nil, fun _ => Fresh.nil.leads⟩

/-- Whatever is read for a rule, no rule in it begins twice before the same token, one inside the
other. -/
theorem Rule.parse_fresh (depth : Nat) : FreshTo depth := by
  induction depth with
  | zero =>
      intro name stack state _ hdeep
      exact absurd hdeep (by unfold Deep Phrase.need; omega)
  | succ depth ih =>
      intro name stack state hmarked hdeep
      have hneed : Deep depth (name.body.need (name.body.startsWith state.current.kind)) state := by
        have hle := name.need_body_le (name.startsWith state.current.kind)
        rw [Rule.starts_with_body]
        unfold Deep Phrase.need at *
        omega
      have hbody := Phrase.run_fresh ih stack name.body .empty hmarked name.is_predictive_body
        name.is_end_free_body_or_ends hneed
      rw [Rule.starts_with_body] at hbody
      rw [Rule.parse]
      unfold Progress.close
      split
      · exact hbody.node _ _
      · exact (hbody.append_leaves (State.recover_extras _ stack _)).node _ _

end Runs

/-- Where a node of a rule stands inside another one in the tree of a text, a token of the text lies
before it in that other one. -/
theorem Parse.parted_of_source (entry : Rule) (source : String) :
    Parted [(ofSource entry source).tree] :=
  (Rule.parse_fresh _ entry [] _ (State.marked_start source)
    (deep_start (entry.need_lt _) _ _)).parted

end Little
