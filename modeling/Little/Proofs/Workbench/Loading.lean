import Little.Proofs.Workbench.History

/-!
# When a sample is loaded

A session does not compare a choice with the one before it, but with the sample loaded last. By
`Session.after_recalls` this is the sample chosen last, so whether a step loads a sample can be told
from the choices alone: it does if it chooses a sample other than the last one that was chosen
(`sample_loaded_unless_last`). Steps without a sample in between make no difference: who goes back
to the same sample finds the editor as it was left (`chosen_again_not_loaded`).
-/

namespace Little

namespace Session

variable {session : Session} {step : Step}

/-- What a run in a step adds to the console, if there is one. -/
def ranOutput (step : Step) (text : String) : String := if step.run then output text else ""

/-- A step loads the text of the sample that it chooses. What is edited, cleared and run in the same
step comes behind. -/
structure Loads (session : Session) (step : Step) (text : String) : Prop where
  chosen : session.choose step.choice =
    { session with
      code := text
      console := session.console ++ loadLine step.choice
      editorKey := session.editorKey + 1
      loaded := some step.choice }
  code : (session.step step).code = step.edit.getD text
  console : (session.step step).console =
    (if step.clear then "" else session.console ++ loadLine step.choice) ++
      ranOutput step (step.edit.getD text)
  editorKey : (session.step step).editorKey = session.editorKey + 1

/-- A step loads nothing. -/
structure LoadsNothing (session : Session) (step : Step) : Prop where
  chosen : session.choose step.choice = session
  code : (session.step step).code = step.edit.getD session.code
  console : (session.step step).console =
    (if step.clear then "" else session.console) ++ ranOutput step (step.edit.getD session.code)
  editorKey : (session.step step).editorKey = session.editorKey

theorem code_step (session : Session) (step : Step) :
    (session.step step).code = step.edit.getD (session.choose step.choice).code := by
  rw [Session.step, run_eq]
  cases step.clear <;> cases step.run <;> rfl

theorem console_step (session : Session) (step : Step) :
    (session.step step).console =
      (if step.clear then "" else (session.choose step.choice).console) ++
        ranOutput step (step.edit.getD (session.choose step.choice).code) := by
  rw [Session.step, run_eq, ranOutput]
  cases step.clear <;> cases step.run <;> simp [clear, edit]

theorem editor_key_step (session : Session) (step : Step) :
    (session.step step).editorKey = (session.choose step.choice).editorKey := by
  rw [Session.step, run_eq]
  cases step.clear <;> cases step.run <;> rfl

/-- A sample is loaded that was not the one loaded last. -/
theorem loads_of_other {text : String} (htext : Sample.text? step.choice = some text)
    (hother : session.loaded ≠ some step.choice) : session.Loads step text := by
  have hname : step.choice ≠ noSample := by
    intro hnone
    rw [hnone, text_no_sample] at htext
    cases htext
  have hchosen : session.choose step.choice =
      { session with
        code := text
        console := session.console ++ loadLine step.choice
        editorKey := session.editorKey + 1
        loaded := some step.choice } := by
    rw [choose, htext, if_neg (by simp [hname, hother])]
  exact ⟨hchosen, by rw [code_step, hchosen], by rw [console_step, hchosen],
    by rw [editor_key_step, hchosen]⟩

theorem LoadsNothing.of_choose (h : session.choose step.choice = session) :
    session.LoadsNothing step :=
  ⟨h, by rw [code_step, h], by rw [console_step, h], by rw [editor_key_step, h]⟩

/-- Nothing is loaded where no sample is chosen. -/
theorem loads_nothing_of_none (h : Sample.text? step.choice = none) :
    session.LoadsNothing step := by
  refine .of_choose ?_
  rw [choose, h]
  exact ite_self _

/-- Nothing is loaded where the sample loaded last is chosen. -/
theorem loads_nothing_of_loaded (h : session.loaded = some step.choice) :
    session.LoadsNothing step := by
  refine .of_choose ?_
  rw [choose, if_pos (by simp [h])]

/-- What the step right before chose is chosen last, if it is a sample. -/
theorem last_sample_of_previous {earlier : List Step} {name : String}
    (h : earlier.getLast?.map (·.choice) = some name) (hname : Sample.text? name ≠ none) :
    lastSample? earlier = some name := by
  obtain ⟨previous, hlast, rfl⟩ := Option.map_eq_some_iff.1 h
  obtain ⟨front, rfl⟩ := List.getLast?_eq_some_iff.1 hlast
  have hsample : previous.sample? = some previous.choice :=
    if_pos (Option.isSome_iff_ne_none.2 hname)
  rw [lastSample?, List.filterMap_append, List.filterMap_cons, hsample]
  exact List.getLast?_concat

end Session

open Session

/-- A step loads the sample that it chooses, unless it is the one chosen last in the steps before. A
step that chooses that one, or what the step before chose, or no sample, loads nothing. -/
theorem sample_loaded_unless_last (earlier : List Step) (step : Step) :
    (∀ text, Sample.text? step.choice = some text → lastSample? earlier ≠ some step.choice →
      (after earlier).Loads step text) ∧
    (lastSample? earlier = some step.choice → (after earlier).LoadsNothing step) ∧
    (earlier.getLast?.map (·.choice) = some step.choice → (after earlier).LoadsNothing step) ∧
    (step.choice = noSample → (after earlier).LoadsNothing step) := by
  have hloaded : (after earlier).loaded = lastSample? earlier := (after_recalls earlier).loaded
  refine ⟨?_, ?_, ?_, ?_⟩
  · intro text htext hother
    exact loads_of_other htext (by rwa [hloaded])
  · intro hlast
    exact loads_nothing_of_loaded (by rwa [hloaded])
  · intro hprevious
    by_cases hname : Sample.text? step.choice = none
    · exact loads_nothing_of_none hname
    · refine loads_nothing_of_loaded ?_
      rw [hloaded, last_sample_of_previous hprevious hname]
  · intro hnone
    exact loads_nothing_of_none (by rw [hnone, text_no_sample])

/-- A sample is chosen, and then none while the text is edited. -/
def editedSince : List Step :=
  [⟨"duplicate.little", none, false, false, false⟩, ⟨noSample, some "x", false, false, false⟩]

/-- The same sample is chosen. -/
def chosenAgain : Step := ⟨"duplicate.little", none, false, false, false⟩

/-- A sample that is chosen again after none was is not loaded again, and the edited text stays. -/
theorem chosen_again_not_loaded :
    Sample.text? chosenAgain.choice = some Sample.duplicate ∧
      editedSince.getLast?.map (·.choice) ≠ some chosenAgain.choice ∧
      ¬ (after editedSince).Loads chosenAgain Sample.duplicate ∧
      (after (editedSince ++ [chosenAgain])).code = "x" := by
  have hkey : (after (editedSince ++ [chosenAgain])).editorKey = (after editedSince).editorKey := by
    decide +kernel
  refine ⟨by decide, by decide, fun h => ?_, by decide +kernel⟩
  have hnext := h.editorKey
  rw [← after_concat, hkey] at hnext
  exact absurd hnext (Nat.ne_add_one _)

/-- Going back and forth between samples loads each of them anew. -/
example : (after (["demo.little", "duplicate.little", "demo.little"].map
    (⟨·, none, false, false, false⟩))).editorKey = 3 := by
  decide +kernel

end Little
