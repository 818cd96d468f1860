import ResponseModels.Proofs.SeenAlike

/-!
# Lists that go back

A list can go through another one in order and now and then go back to something it has come by
before. `Retraces` says so, with a relation between what stands in the two lists and with a list of
what was come by before they start.

* It is kept by putting lists together (`Retraces.append`), by taking some of the elements
  (`Retraces.filter`) and by replacing each with a list (`Retraces.flatMap`).
* Nothing is come by that was not there (`Retraces.exists_of_mem`).
* Where the relation is that two elements look the same, the lists differ only in what was seen
  before (`Retraces.seenAlike`).
-/

set_option autoImplicit false

namespace ResponseModels

variable {α β γ δ : Type}

/-- The second list goes through the first in order, and now and then goes back to something
before. -/
inductive Retraces (R : α → β → Prop) : List α → List α → List β → Prop
  | nil (before : List α) : Retraces R before [] []
  | next {before l : List α} {l' : List β} {a : α} {b : β} (step : R a b)
      (rest : Retraces R (before ++ [a]) l l') :
      Retraces R before (a :: l) (b :: l')
  | back {before l : List α} {l' : List β} {a : α} {b : β} (seen : a ∈ before) (step : R a b)
      (rest : Retraces R before l l') : Retraces R before l (b :: l')

namespace Retraces

variable {R : α → β → Prop} {before l : List α} {l' : List β}

theorem weaken {more : List α} (h : Retraces R before l l') (hsub : before ⊆ more) :
    Retraces R more l l' := by
  induction h generalizing more with
  | nil => exact .nil more
  | next step _ ih =>
    exact .next step (ih (List.append_subset.mpr ⟨List.subset_append_of_subset_left _ hsub,
      List.subset_append_right _ _⟩))
  | back seen step _ ih => exact .back (hsub seen) step (ih hsub)

theorem append {m : List α} {m' : List β} (h : Retraces R before l l')
    (h' : Retraces R (before ++ l) m m') :
    Retraces R before (l ++ m) (l' ++ m') := by
  induction h with
  | nil before => exact (List.append_nil before) ▸ h'
  | next step _ ih => exact .next step (ih (by rwa [List.append_assoc]))
  | back seen step _ ih => exact .back seen step (ih h')

/-- At the end a list can go back once more. -/
theorem append_back {a : α} {b : β} (h : Retraces R before l l') (ha : a ∈ before ++ l)
    (hab : R a b) :
    Retraces R before l (l' ++ [b]) := by
  have hback := h.append (.back ha hab (.nil _))
  rwa [List.append_nil] at hback

/-- A list that only goes back. -/
theorem of_forall (h : ∀ b ∈ l', ∃ a ∈ before, R a b) : Retraces R before [] l' := by
  induction l' with
  | nil => exact .nil before
  | cons b l' ih =>
    obtain ⟨⟨a, ha, hab⟩, hrest⟩ := List.forall_mem_cons.mp h
    exact .back ha hab (ih hrest)

theorem exists_of_mem (h : Retraces R before l l') {b : β} (hb : b ∈ l') :
    ∃ a ∈ before ++ l, R a b := by
  induction h with
  | nil => exact absurd hb List.not_mem_nil
  | @next before l _ a _ step _ ih =>
    rcases List.mem_cons.mp hb with rfl | hb
    · exact ⟨a, List.mem_append_right _ List.mem_cons_self, step⟩
    · exact (List.append_cons before a l).symm ▸ ih hb
  | back seen step _ ih =>
    rcases List.mem_cons.mp hb with rfl | hb
    · exact ⟨_, List.mem_append_left _ seen, step⟩
    · exact ih hb

theorem imp {S : α → β → Prop} (h : Retraces R before l l')
    (himp : ∀ a ∈ before ++ l, ∀ b ∈ l', R a b → S a b) :
    Retraces S before l l' := by
  induction h with
  | nil before => exact .nil before
  | @next before l l' a b step _ ih =>
    refine .next (himp a (by simp) b List.mem_cons_self step) (ih fun x hx y hy ↦ ?_)
    exact himp x (List.append_cons before a l ▸ hx) y (List.mem_cons_of_mem _ hy)
  | back seen step _ ih =>
    refine .back seen (himp _ (List.mem_append_left _ seen) _ List.mem_cons_self step)
      (ih fun x hx y hy ↦ ?_)
    exact himp x hx y (List.mem_cons_of_mem _ hy)

/-- Up to the first element of a list nothing is come by but what was there before. -/
theorem exists_split {a : α} (h : Retraces R before (a :: l) l') :
    ∃ backs b rest, l' = backs ++ b :: rest ∧ (∀ x ∈ backs, ∃ k ∈ before, R k x) ∧ R a b ∧
      Retraces R (before ++ [a]) l rest := by
  generalize hl : a :: l = whole at h
  induction h with
  | nil => cases hl
  | next step rest _ =>
    cases hl
    exact ⟨[], _, _, rfl, fun x hx ↦ absurd hx List.not_mem_nil, step, rest⟩
  | back seen step _ ih =>
    obtain ⟨backs, b, rest, rfl, hbacks, hstep, hrest⟩ := ih hl
    exact ⟨_ :: backs, b, rest, rfl, List.forall_mem_cons.mpr ⟨⟨_, seen, step⟩, hbacks⟩, hstep,
      hrest⟩

theorem flatMap {S : γ → δ → Prop} {f : α → List γ} {g : β → List δ} (h : Retraces R before l l')
    (hR : ∀ a b, R a b → Retraces S [] (f a) (g b)) :
    Retraces S (before.flatMap f) (l.flatMap f) (l'.flatMap g) := by
  induction h with
  | nil => exact .nil _
  | @next before l l' a b step _ ih =>
    rw [List.flatMap_cons, List.flatMap_cons]
    rw [List.flatMap_append, List.flatMap_singleton] at ih
    exact ((hR a b step).weaken (List.nil_subset _)).append ih
  | @back before l l' a b seen step _ ih =>
    rw [List.flatMap_cons]
    refine .append (l := []) (of_forall fun y hy ↦ ?_) ((List.append_nil _).symm ▸ ih)
    obtain ⟨x, hx, hxy⟩ := (hR a b step).exists_of_mem hy
    exact ⟨x, List.mem_flatMap.mpr ⟨a, seen, hx⟩, hxy⟩

theorem map {S : γ → δ → Prop} {f : α → γ} {g : β → δ} (h : Retraces R before l l')
    (hR : ∀ a b, R a b → S (f a) (g b)) :
    Retraces S (before.map f) (l.map f) (l'.map g) := by
  simp only [List.map_eq_flatMap]
  exact h.flatMap fun a b hab ↦ .next (hR a b hab) (.nil _)

theorem filter {p : α → Bool} {q : β → Bool} (h : Retraces R before l l')
    (hR : ∀ a b, R a b → p a = q b) :
    Retraces R (before.filter p) (l.filter p) (l'.filter q) := by
  simp only [← List.filterMap_eq_filter, List.filterMap_eq_flatMap_toList]
  refine h.flatMap fun a b hab ↦ ?_
  have heq := hR a b hab
  cases hq : q b with
  | true =>
    simp only [Option.guard, heq, hq, if_true]
    exact .next hab (.nil _)
  | false =>
    simp only [Option.guard, heq, hq]
    exact .nil _

/-- Lists that are seen to be the same element by element differ in what was seen before. -/
theorem seenAlike {l₁ l₂ before : List α} (h : Retraces Eq before l₁ l₂) :
    SeenAlike (before ++ l₁) (before ++ l₂) := by
  induction h with
  | nil => exact .refl _
  | @next before l₁ l₂ a b step _ ih =>
    cases step
    rwa [List.append_cons before a l₁, List.append_cons before a l₂]
  | back seen step _ ih =>
    cases step
    exact ih.trans (.symm (.again _ seen))

end Retraces
end ResponseModels
