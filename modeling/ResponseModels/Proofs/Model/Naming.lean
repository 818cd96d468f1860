import Mathlib.Data.List.Nodup
import Mathlib.Data.List.Perm.Subperm
import ResponseModels.Model.Plan

/-!
# Names are given once

A name that is taken is given a number. There are only as many taken names as there are numbers to
try, less one, so one of the numbered names is free (`freshName_notMem`). Hence the names given to a
list of models differ (`nodup_freshNames`), and so do the names in a plan
(`Field.nodup_names_plan`).
-/

set_option autoImplicit false

namespace ResponseModels

/-- Different numbers behind a name make different names. -/
theorem numbered_injective (name : String) :
    Function.Injective fun k : Nat ↦ name ++ toString k := by
  intro i j h
  have hdigits := (String.append_right_inj name).mp h
  rw [Nat.toString_eq_ofList_toDigits, Nat.toString_eq_ofList_toDigits,
    String.ofList_inj] at hdigits
  rw [← Nat.ofDigitChars_ten_toDigits (n := i), hdigits, Nat.ofDigitChars_ten_toDigits]

/-- Numbering a name gives different names. -/
theorem nodup_numbered (name : String) (j k : Nat) :
    ((List.range' j k).map fun i ↦ name ++ toString i).Nodup :=
  .map (numbered_injective name) List.nodup_range'

/-- **A fresh name is not taken.** -/
theorem freshName_notMem (taken : List String) (name : String) : freshName taken name ∉ taken := by
  rw [freshName]
  split
  case isFalse h => exact h
  case isTrue =>
    have hnodup := nodup_numbered name 2 (taken.length + 1)
    have hlength : ((List.range' 2 (taken.length + 1)).map fun i ↦ name ++ toString i).length =
      taken.length + 1 := by simp
    generalize (List.range' 2 (taken.length + 1)).map (fun i ↦ name ++ toString i) = candidates at *
    -- There are more candidates than taken names, so they are not all taken.
    have hfree : ∃ candidate ∈ candidates, candidate ∉ taken := by
      by_contra hall
      have hsubset : candidates ⊆ taken := fun c hc ↦ by
        by_contra hfree
        exact hall ⟨c, hc, hfree⟩
      have hle := (hnodup.subperm hsubset).length_le
      omega
    obtain ⟨c, hc, hfree⟩ := hfree
    cases hfind : candidates.find? fun candidate ↦ candidate ∉ taken with
    | none => exact absurd (decide_eq_true hfree) (List.find?_eq_none.mp hfind c hc)
    | some found =>
      have hfound := List.find?_some hfind
      simpa only [hfind, Option.getD_some] using of_decide_eq_true hfound

/-- **Fresh names differ**, and none of them is taken. -/
theorem nodup_freshNames (taken names : List String) :
    (freshNames taken names).Nodup ∧ ∀ n ∈ freshNames taken names, n ∉ taken := by
  induction names generalizing taken with
  | nil => simp [freshNames]
  | cons name rest ih =>
    obtain ⟨hnodup, hfresh⟩ := ih (taken ++ [freshName taken name])
    simp only [freshNames, List.nodup_cons, List.forall_mem_cons]
    refine ⟨⟨fun hmem ↦ ?_, hnodup⟩, freshName_notMem taken name, fun n hn htaken ↦ ?_⟩
    · exact hfresh _ hmem (List.mem_append_right _ (List.mem_singleton_self _))
    · exact hfresh n hn (List.mem_append_left _ htaken)

/-- The models of a plan have the fresh names of the drafts. -/
theorem Field.map_name_plan (f : Field) (site : Site) :
    (f.plan site).map PlannedModel.name =
      freshNames [] ((f.fieldSets.flatMap (f.drafts site)).map PlannedModel.name) := by
  rw [plan, List.map_map]
  exact List.map_snd_zip (by simp)

theorem Field.nodup_names_plan (f : Field) (site : Site) :
    ((f.plan site).map PlannedModel.name).Nodup :=
  f.map_name_plan site ▸ (nodup_freshNames [] _).1

end ResponseModels
