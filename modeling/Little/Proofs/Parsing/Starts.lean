import Little.Proofs.Grammar.Nodes
import Little.Proofs.Parsing.Attempt
import Little.Proofs.Parsing.Trail

/-!
# Where nodes begin

A node keeps the token that was in view when its rule began. If the first leaf in it is a token that
was expected there, it is that token (`Parse.anchored_of_source`), with or without faults: whatever
leaves no leaf passes no token, so the token in view is still the same (`Trail.first_leaf`).
-/

namespace Little

/-- The nodes in a row of trees begin where their first leaf stands, if it was expected there. -/
def Anchored (trees : List Tree) : Prop :=
  ∀ above, ∀ node ∈ Tree.occurrencesAll above trees, ∀ rule start stop children,
    node.tree = .node rule start stop children →
    ∀ token, (Tree.leavesAll children).head? = some (.leaf token) → start = token

/-- Without leaves no token is passed, and otherwise the first leaf is the token in view if it was
expected. -/
theorem Trail.first_leaf {state next : State} {trees : List Tree} (h : Trail state trees next)
    (hmarked : state.Marked) :
    (Tree.leavesAll trees = [] → next.current = state.current) ∧
      ∀ token, (Tree.leavesAll trees).head? = some (.leaf token) → state.current = token := by
  induction h with
  | stay | lookAhead | stall =>
      refine ⟨fun _ => rfl, fun token hhead => ?_⟩
      cases hhead
  | report state problem =>
      refine ⟨fun _ => ?_, fun token hhead => ?_⟩
      · rw [State.current, State.ahead_report, State.eof_report]
        rfl
      · cases hhead
  | accept state =>
      refine ⟨fun hnone => ?_, fun token hhead => ?_⟩
      · cases hnone
      · exact Tree.leaf.inj (Option.some.inj hhead)
  | delete | conjure | pass =>
      refine ⟨fun hnone => ?_, fun token hhead => ?_⟩
      · cases hnone
      · cases hhead
  | node rule start stop _ ih =>
      rw [Tree.leavesAll, Tree.leaves, Tree.leavesAll, List.append_nil]
      exact ih hmarked
  | @append state middle next front back hfront _ ih ih' =>
      obtain ⟨hstill, hfirst⟩ := ih hmarked
      obtain ⟨hstill', hfirst'⟩ := ih' (hfront.marked hmarked)
      rw [Tree.leaves_all_append]
      refine ⟨fun hnone => ?_, fun token hhead => ?_⟩
      · rw [List.append_eq_nil_iff] at hnone
        exact (hstill' hnone.2).trans (hstill hnone.1)
      · cases hleaves : Tree.leavesAll front with
        | nil =>
            rw [hleaves, List.nil_append] at hhead
            exact (hstill hleaves).symm.trans (hfirst' token hhead)
        | cons leaf leaves =>
            rw [hleaves] at hhead
            exact hfirst token (by rw [hleaves]; exact hhead)

namespace Anchored

variable {front back trees : List Tree}

theorem of_leaves (h : ∀ tree ∈ trees, tree.isNode = false) : Anchored trees := by
  intro above node hmem rule start stop children hnode
  have hrule := Tree.rule_of_leaves h hmem
  rw [hnode] at hrule
  cases hrule

theorem nil : Anchored [] := of_leaves nofun

theorem append (hfront : Anchored front) (hback : Anchored back) : Anchored (front ++ back) := by
  intro above node hmem
  rw [Tree.occurrences_all_append, List.mem_append] at hmem
  exact hmem.elim (hfront above node) (hback above node)

/-- A node over a trail begins where the trail does. -/
theorem node {state next : State} (h : Anchored trees) (htrail : Trail state trees next)
    (hmarked : state.Marked) (rule : Rule) (stop : Option Token) :
    Anchored [.node rule state.current stop trees] := by
  intro above node hmem
  rw [Tree.occurrences_all_singleton, Tree.occurrences, List.mem_cons] at hmem
  rcases hmem with rfl | hmem
  · rintro _ _ _ _ ⟨⟩
    exact (htrail.first_leaf hmarked).2
  · exact h (rule :: above) node hmem

theorem and_then {progress : Progress} {next : State → Progress} (h : Anchored progress.made)
    (hnext : Anchored (next progress.state).made) : Anchored (progress.andThen next).made := by
  unfold Progress.andThen
  split
  · exact h
  · exact h.append hnext

end Anchored

section Runs

variable {depth : Nat}

theorem repeat_while_anchored {enters : Kind → Bool} {step : State → Progress}
    (htrail : ∀ state, (step state).IsTrail state)
    (hstep : ∀ state : State, state.Marked → Anchored (step state).made) (rounds : Nat)
    {state : State} (hmarked : state.Marked) :
    Anchored (repeatWhile enters step rounds state).made := by
  induction rounds generalizing state with
  | zero => exact .nil
  | succ rounds ih =>
      rw [repeatWhile]
      split
      · exact (hstep state hmarked).and_then (ih ((htrail state).marked hmarked))
      · exact .nil

theorem Phrase.run_anchored
    (hcall : ∀ (name : Rule) (stack : List Phrase) (state : State), state.Marked →
      Anchored [(name.parse depth stack state).1])
    (stack : List Phrase) (phrase follow : Phrase) {state : State} (hmarked : state.Marked) :
    Anchored (phrase.run (Rule.parse depth) stack depth follow state).made := by
  have hsync (site : Phrase) (state : State) : Anchored (state.sync site).made :=
    .of_leaves (State.sync_extras site state).1
  have hsynced (site : Phrase) {state : State} (hmarked : state.Marked) :
      (state.sync site).state.Marked := (State.sync_trail site state).marked hmarked
  induction phrase generalizing follow state with
  | empty => exact .nil
  | token | oneOf => exact .of_leaves (State.expect_leaves _ _ _ _ _ _)
  | rule name => exact hcall name (follow :: stack) state hmarked
  | seq first second ih ih' =>
      exact (ih _ hmarked).and_then (ih' follow ((reading_trail depth stack first _ state).marked
        hmarked))
  | alt left right ih ih' =>
      refine (hsync _ state).and_then ?_
      split
      · exact ih follow (hsynced _ hmarked)
      · split
        · exact ih' follow (hsynced _ hmarked)
        · exact .nil
  | opt body ih =>
      refine (hsync _ state).and_then ?_
      split
      · exact ih follow (hsynced _ hmarked)
      · exact .nil
  | star body ih =>
      exact repeat_while_anchored (reading_trail depth stack body _) (fun _ => ih _) depth hmarked
  | fork kind second left right ih ih' =>
      have hlook : (state.sync (.seq (.fork kind second left right) follow)).state.lookAhead.Marked :=
        (Trail.lookAhead _).marked (hsynced _ hmarked)
      refine (hsync _ state).and_then ?_
      split
      · dsimp only
        split
        · exact ih follow hlook
        · exact ih' follow hlook
      · split
        · exact ih' follow (hsynced _ hmarked)
        · exact .nil

/-- Whatever is read for a rule, the nodes in it begin where their first leaves stand. -/
theorem Rule.parse_anchored (depth : Nat) (name : Rule) (stack : List Phrase) (state : State)
    (hmarked : state.Marked) : Anchored [(name.parse depth stack state).1] := by
  induction depth generalizing name stack state with
  | zero => exact Anchored.nil.node (.stay state) hmarked name _
  | succ depth ih =>
      have hbody := Phrase.run_anchored ih stack name.body .empty hmarked
      have htrail := reading_trail depth stack name.body .empty state
      rw [Rule.parse]
      unfold Progress.close
      split
      · exact hbody.node htrail hmarked name _
      · exact (hbody.append (.of_leaves (State.recover_extras _ stack _))).node
          (htrail.append (State.recover_trail _ stack _)) hmarked name _

end Runs

/-- The nodes in the tree of a text begin where their first leaves stand. -/
theorem Parse.anchored_of_source (entry : Rule) (source : String) :
    Anchored [(ofSource entry source).tree] :=
  Rule.parse_anchored (depthBound (Lexing.ofSource source).tokens.length) entry [] _
    (State.marked_start source)

end Little
