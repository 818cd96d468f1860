import ResponseModels.Proofs.Condition.Alternatives

/-!
# Normal forms

`Canonical` says in the words of the simplifier that none of its rules applies. Here the same is
said of the way a condition is written: a junction has at least two operands, none of them a
constant or a junction of the same kind, no literal beside its inversion, and no junction of the
other kind that holds another operand or all the operands of another one (`Normal`). The two come to
the same (`Normal.canonical`, `Canonical.normal`), so what simplifying leaves alone can be read off
a condition without simplifying it (`normal_simplify_iff`).

Absorption asks for less than normal forms do. In a conjunction a disjunction is never tried as a
*member* of another disjunction, only its operands are. It could not be one: in a normal form no
disjunction stands directly in a disjunction.
-/

set_option autoImplicit false

namespace ResponseModels

open Ascending (IsAscending)

namespace Junction

/-- The operands of a junction leave nothing to simplify, as far as the junction itself is
concerned. -/
structure Settled (kind : Junction) (operands : List Condition) : Prop where
  /-- There are at least two of them. -/
  two : 2 ≤ operands.length
  /-- They are a set, listed in order. -/
  ascending : IsAscending operands
  /-- None is a constant. -/
  no_constant : .always ∉ operands ∧ .never ∉ operands
  /-- None is a junction of the same kind. -/
  no_nesting : ∀ inner, .junction kind inner ∉ operands
  /-- No variable stands there both plain and inverted. -/
  consistent : Condition.Consistent operands
  /-- No junction of the other kind holds another operand. -/
  no_member : ∀ inner, .junction kind.dual inner ∈ operands →
    ∀ c ∈ operands, c ≠ .junction kind.dual inner → c ∉ inner
  /-- No junction of the other kind holds all the operands of another one. -/
  no_part : ∀ inner inner', .junction kind.dual inner ∈ operands →
    .junction kind.dual inner' ∈ operands → inner' ≠ inner → ¬ inner' ⊆ inner

theorem ne_iff_eq_dual {j k : Junction} : k ≠ j ↔ k = j.dual := by
  cases j <;> cases k <;> simp [dual]

theorem width_eq_zero {j : Junction} {c : Condition} (h : ∀ inner, c ≠ .junction j.dual inner) :
    j.width c = 0 := by
  cases c with
  | junction k inner =>
    have hk : k = j := Decidable.byContradiction fun hne ↦ h inner (by rw [ne_iff_eq_dual.mp hne])
    rw [width, if_pos hk]
  | _ => rfl

theorem admits_iff {j : Junction} {c : Condition} :
    j.Admits c ↔ c ≠ .always ∧ c ≠ .never ∧ ∀ inner, c ≠ .junction j inner := by
  cases c <;> simp [Admits]

theorem unabsorbed_eq_self_iff {j : Junction} {operands : List Condition} :
    j.unabsorbed operands = operands ↔ ∀ c ∈ operands, ∀ other ∈ operands,
      j.absorbs other c = false := by
  simp [unabsorbed, List.filter_eq_self]

/-- Settled operands absorb nothing. -/
theorem Settled.absorbs_eq_false {j : Junction} {operands : List Condition} (h : j.Settled operands)
    {c other : Condition} (hc : c ∈ operands) (hother : other ∈ operands) :
    j.absorbs other c = false := by
  refine Bool.eq_false_iff.mpr fun habsorbs ↦ ?_
  obtain ⟨k, inner, rfl, hk, hne, hheld⟩ := absorbs_elim habsorbs
  obtain rfl := ne_iff_eq_dual.mp hk
  rcases hheld with ⟨hmem, -⟩ | ⟨k', inner', rfl, hk', hsub⟩
  · exact h.no_member inner hc other hother hne hmem
  · obtain rfl := ne_iff_eq_dual.mp hk'
    exact h.no_part inner inner' hc hother (fun heq ↦ hne (heq ▸ rfl)) hsub

end Junction

namespace Condition

/-- A constant, a literal, or a junction of normal operands that leave nothing to simplify. -/
inductive Normal : Condition → Prop
  | always : Normal .always
  | never : Normal .never
  | literal (name : Name) (inverted : Bool) : Normal (.literal name inverted)
  | junction {kind : Junction} {operands : List Condition} (settled : kind.Settled operands)
      (each : ∀ c ∈ operands, Normal c) : Normal (.junction kind operands)

theorem Normal.canonical {c : Condition} (h : c.Normal) : c.Canonical := by
  induction h with
  | always => exact .always
  | never => exact .never
  | literal name inverted => exact .literal name inverted
  | @junction kind operands settled _ ih =>
    refine .junction settled.two settled.ascending ih (fun c hc ↦ ?_)
      (consistent_iff.mp settled.consistent) ?_
    · refine Junction.admits_iff.mpr ⟨?_, ?_, ?_⟩
      · rintro rfl
        exact settled.no_constant.1 hc
      · rintro rfl
        exact settled.no_constant.2 hc
      · rintro inner rfl
        exact settled.no_nesting inner hc
    · exact Junction.unabsorbed_eq_self_iff.mpr fun c hc other hother ↦
        settled.absorbs_eq_false hc hother

/-- Whatever a canonical junction of the other kind holds absorbs it. -/
theorem Canonical.absorbs_of_mem {j : Junction} {inner : List Condition} {c : Condition}
    (h : (Condition.junction j.dual inner).Canonical) (hc : c ∈ inner)
    (hne : c ≠ .junction j.dual inner) :
    j.absorbs c (.junction j.dual inner) = true := by
  have hdual : ∀ inner', c ≠ .junction j.dual inner' := by
    rintro inner' rfl
    cases h with
    | junction two ascending each admitted => exact admitted _ hc rfl
  exact Junction.absorbs_intro (Junction.ne_iff_eq_dual.mpr rfl) hne
    (.inl ⟨hc, Junction.width_eq_zero hdual⟩)

theorem Canonical.normal {c : Condition} (h : c.Canonical) : c.Normal := by
  induction h with
  | always => exact .always
  | never => exact .never
  | literal name inverted => exact .literal name inverted
  | @junction kind operands two ascending each admitted consistent unabsorbed ih =>
    have hnot := Junction.unabsorbed_eq_self_iff.mp unabsorbed
    refine .junction ⟨two, ascending, ⟨fun hc ↦ admitted _ hc, fun hc ↦ admitted _ hc⟩,
      fun inner hc ↦ admitted _ hc rfl, consistent_iff.mpr consistent, ?_, ?_⟩ ih
    · intro inner hinner c hc hne hmem
      exact Bool.eq_false_iff.mp (hnot _ hinner c hc) ((each _ hinner).absorbs_of_mem hmem hne)
    · intro inner inner' hinner hinner' hne hsub
      have hkind := Junction.ne_iff_eq_dual.mpr (rfl : kind.dual = kind.dual)
      exact Bool.eq_false_iff.mp (hnot _ hinner _ hinner')
        (Junction.absorbs_intro hkind (fun heq ↦ hne (by injection heq))
        (.inr ⟨kind.dual, inner', rfl, hkind, fun x hx ↦ hsub hx⟩))

/-- **Simplifying gives the normal forms and nothing else.** What comes of simplifying is normal,
and a condition is normal exactly when simplifying does not change it. So to simplify twice is to
simplify once. -/
theorem normal_simplify_iff (c : Condition) :
    c.simplify.Normal ∧ (c.Normal ↔ c.simplify = c) ∧ c.simplify.simplify = c.simplify := by
  have hcanonical := canonical_simplify c
  refine ⟨hcanonical.normal, ⟨fun h ↦ h.canonical.simplify_eq, fun h ↦ ?_⟩, hcanonical.simplify_eq⟩
  rw [← h]
  exact hcanonical.normal

end Condition
end ResponseModels
