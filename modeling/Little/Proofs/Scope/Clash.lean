import Mathlib.Data.List.Nodup
import Little.Proofs.Scope.Outline

/-!
# The first name declared twice

`firstRepeat` finds nothing exactly if no name occurs twice (`first_repeat_eq_none_iff`). The first
clash of an outline is the first of all declared identifiers whose name was declared before in the
same body (`Outline.exists_of_first_clash`).
-/

namespace Little

/-- No item is a repetition exactly if no name is among those seen or occurs twice. -/
theorem first_repeat_eq_none_iff {seen : List String} {items : List Item} :
    firstRepeat seen items = none ↔
      (items.map Item.name).Nodup ∧ ∀ item ∈ items, item.name ∉ seen := by
  induction items generalizing seen with
  | nil => simp [firstRepeat]
  | cons item items ih =>
      simp only [firstRepeat, List.map_cons, List.nodup_cons, List.mem_map, List.forall_mem_cons]
      split
      · next hseen => simp [hseen]
      · next hseen =>
        rw [ih]
        simp only [List.mem_append, List.mem_singleton, not_or, hseen, not_false_eq_true, true_and]
        constructor
        · rintro ⟨hnodup, hall⟩
          refine ⟨⟨?_, hnodup⟩, fun other hother => (hall other hother).1⟩
          rintro ⟨other, hother, heq⟩
          exact (hall other hother).2 heq
        · rintro ⟨⟨hfresh, hnodup⟩, hall⟩
          exact ⟨hnodup, fun other hother =>
            ⟨hall other hother, fun heq => hfresh ⟨other, hother, heq⟩⟩⟩

/-- The first repetition stands behind items that are none. -/
theorem exists_of_first_repeat {seen : List String} {items : List Item} {item : Item}
    (h : firstRepeat seen items = some item) :
    ∃ front back, items = front ++ item :: back ∧
      item.name ∈ seen ++ front.map Item.name ∧ firstRepeat seen front = none := by
  induction items generalizing seen with
  | nil => exact absurd h.symm (Option.some_ne_none item)
  | cons other items ih =>
      rw [firstRepeat] at h
      split at h
      · next hseen =>
        obtain rfl := Option.some.inj h
        exact ⟨[], items, rfl, by simpa using hseen, rfl⟩
      · next hseen =>
        obtain ⟨front, back, rfl, hmem, hnone⟩ := ih h
        refine ⟨other :: front, back, rfl, by simpa using hmem, ?_⟩
        rw [firstRepeat, if_neg hseen, hnone]

namespace Outline

/-- What tells apart the declared identifiers that may not be declared twice. -/
def key (declared : Nat × Item) : Nat × String := (declared.1, declared.2.name)

/-- Nothing clashes exactly if no body declares a name twice. -/
theorem first_clash_eq_none_iff {outline : Outline} :
    outline.firstClash = none ↔ ∀ body ∈ outline.bodies, (body.map Item.name).Nodup := by
  simp [firstClash, List.findSome?_eq_none_iff, first_repeat_eq_none_iff]

/-- The keys of a body are told apart exactly if its names are. -/
theorem nodup_keys_iff {index : Nat} {items : List Item} :
    ((items.map fun item => (index, item)).map key).Nodup ↔ (items.map Item.name).Nodup := by
  have hkeys : (items.map fun item => (index, item)).map key =
      (items.map Item.name).map (Prod.mk index) := by
    simp [key, Function.comp_def]
  rw [hkeys]
  exact List.nodup_map_iff fun _ _ heq => (Prod.mk.inj heq).2

theorem exists_of_find_repeat {bodies : List (List Item)} {item : Item} (start : Nat)
    (h : bodies.findSome? (firstRepeat []) = some item) :
    ∃ front index back,
      ((bodies.zipIdx start).flatMap fun (body, index) => body.map fun item => (index, item)) =
        front ++ (index, item) :: back ∧
      (index, item.name) ∈ front.map key ∧ (front.map key).Nodup ∧
      ∀ entry ∈ front, start ≤ entry.1 := by
  induction bodies generalizing start with
  | nil => exact absurd h.symm (Option.some_ne_none item)
  | cons body bodies ih =>
      rw [List.findSome?_cons] at h
      rw [List.zipIdx_cons, List.flatMap_cons]
      cases hbody : firstRepeat [] body with
      | some found =>
          rw [hbody] at h
          obtain rfl := Option.some.inj h
          obtain ⟨front, back, rfl, hmem, hnone⟩ := exists_of_first_repeat hbody
          refine ⟨front.map fun item => (start, item), start, _, by simp; rfl, ?_,
            nodup_keys_iff.2 (first_repeat_eq_none_iff.1 hnone).1, by simp⟩
          simpa [key] using hmem
      | none =>
          rw [hbody] at h
          obtain ⟨front, index, back, heq, hmem, hnodup, hle⟩ := ih (start + 1) h
          refine ⟨(body.map fun item => (start, item)) ++ front, index, back,
            by rw [heq, List.append_assoc], ?_, ?_, ?_⟩
          · rw [List.map_append]
            exact List.mem_append_right _ hmem
          · -- later bodies have other numbers
            rw [List.map_append, List.nodup_append]
            refine ⟨nodup_keys_iff.2 (first_repeat_eq_none_iff.1 hbody).1, hnodup, ?_⟩
            rintro _ hfirst _ hlater rfl
            simp only [List.map_map, List.mem_map, Function.comp_apply, key] at hfirst hlater
            obtain ⟨_, -, rfl⟩ := hfirst
            obtain ⟨entry, hentry, hkey⟩ := hlater
            have hstart := hle entry hentry
            rw [(Prod.mk.inj hkey).1] at hstart
            exact Nat.not_succ_le_self start hstart
          · intro entry hentry
            rcases List.mem_append.1 hentry with hfirst | hlater
            · obtain ⟨_, -, rfl⟩ := List.mem_map.1 hfirst
              exact Nat.le_refl _
            · exact Nat.le_of_succ_le (hle entry hlater)

/-- The first clash is the first declared identifier whose name was declared before in its body. -/
theorem exists_of_first_clash {outline : Outline} {item : Item}
    (h : outline.firstClash = some item) :
    ∃ front index back, outline.declared = front ++ (index, item) :: back ∧
      (index, item.name) ∈ front.map key ∧ (front.map key).Nodup := by
  obtain ⟨front, index, back, heq, hmem, hnodup, -⟩ := exists_of_find_repeat 0 h
  exact ⟨front, index, back, heq, hmem, hnodup⟩

end Outline

end Little
