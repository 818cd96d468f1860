import ResponseModels.Proofs.Condition.Grouping
import ResponseModels.Proofs.Condition.NormalForm

/-!
# Negation mirrors conditions

A condition is negated by inverting its literals and exchanging the constants and the two kinds of
junction. `Mirrors` says so of two conditions, apart from how it is computed. The negation of a
condition is the mirror image of what simplifying makes of it (`negation_mirrors`), so it undoes
itself up to simplification and exchanges `and` and `or`, down to how the results are written.

The reason is that each rule of simplification for conjunctions has its mirror image among those for
disjunctions: splicing, complements, absorption and joining all commute with negation, and so does
reducing a junction (`Junction.negated_reduce`). Negation changes the order of operands, so lists of
operands are compared as sets. Absorption asks whether two operands are the same, and negation must
not make two of them equal: that holds where operands ascend (`negated_inj`), and so it does in
everything that has been simplified.
-/

set_option autoImplicit false

namespace ResponseModels

open Ascending (IsAscending)

@[simp] theorem Junction.dual_dual (j : Junction) : j.dual.dual = j := by
  cases j <;> rfl

@[simp] theorem Junction.dual_inj {j k : Junction} : j.dual = k.dual ↔ j = k := by
  cases j <;> cases k <;> simp [dual]

namespace Condition

/-! ## Mirror images -/

/-- The second condition is the mirror image of the first: literals are inverted, and constants and
kinds of junction exchanged, at every depth. `image` gives the mirror images of the operands of a
junction. These are a set, so they are listed in order again. -/
inductive Mirrors : Condition → Condition → Prop
  | always : Mirrors .always .never
  | never : Mirrors .never .always
  | literal (name : Name) (inverted : Bool) :
      Mirrors (.literal name inverted) (.literal name (!inverted))
  | junction {kind other : Junction} {operands images : List Condition} (exchanged : other ≠ kind)
      (image : Condition → Condition) (each : ∀ c ∈ operands, Mirrors c (image c))
      (ascending : IsAscending images) (same : ∀ x, x ∈ images ↔ ∃ c ∈ operands, image c = x) :
      Mirrors (.junction kind operands) (.junction other images)

/-- The negations of a set of conditions. -/
def negations (l : List Condition) : List Condition := Ascending.ofList (l.map negated)

@[simp] theorem mem_negations {l : List Condition} {x : Condition} :
    x ∈ negations l ↔ ∃ c ∈ l, c.negated = x := by
  rw [negations, Ascending.mem_ofList, List.mem_map]

theorem isAscending_negations (l : List Condition) : IsAscending (negations l) :=
  Ascending.isAscending_ofList _

theorem negated_junction (j : Junction) (l : List Condition) :
    (junction j l).negated = junction j.dual (negations l) := by
  rw [negated, negatedEach_eq_map, negations]

/-- Negating gives the mirror image, and there is only one. -/
theorem mirrors_iff {c d : Condition} : Mirrors c d ↔ d = c.negated := by
  constructor
  · intro h
    induction h with
    | always => rfl
    | never => rfl
    | literal name inverted => rfl
    | @junction kind other operands images exchanged image each ascending same ih =>
      have himages : images = negations operands := by
        refine Ascending.ext ascending (isAscending_negations _) fun x ↦ ?_
        rw [same, mem_negations]
        exact exists_congr fun c ↦ and_congr_right fun hc ↦ by rw [ih c hc]
      rw [negated_junction, himages, Junction.ne_iff_eq_dual.mp exchanged]
  · rintro rfl
    induction c using Condition.induction with
    | always => exact .always
    | never => exact .never
    | literal name inverted => exact .literal name inverted
    | junction kind operands ih =>
      rw [negated_junction]
      exact .junction (Junction.ne_iff_eq_dual.mpr rfl) negated ih (isAscending_negations _) fun x ↦
        mem_negations

/-! ## Negating twice -/

theorem tidy_negated (c : Condition) : c.negated.Tidy := by
  induction c using Condition.induction with
  | always => exact .never
  | never => exact .always
  | literal name inverted => exact .literal name _
  | junction kind operands ih =>
    rw [negated_junction]
    refine .junction (isAscending_negations _) fun x hx ↦ ?_
    obtain ⟨c, hc, rfl⟩ := mem_negations.mp hx
    exact ih c hc

theorem negated_negated {c : Condition} (h : c.Tidy) : c.negated.negated = c := by
  induction h with
  | always => rfl
  | never => rfl
  | literal name inverted => rw [negated, negated, Bool.not_not]
  | @junction kind operands ascending each ih =>
    have hoperands : negations (negations operands) = operands := by
      refine Ascending.ext (isAscending_negations _) ascending fun x ↦ ?_
      simp only [mem_negations]
      constructor
      · rintro ⟨-, ⟨c, hc, rfl⟩, rfl⟩
        rwa [ih c hc]
      · exact fun hx ↦ ⟨x.negated, ⟨x, hx, rfl⟩, ih x hx⟩
    rw [negated_junction, negated_junction, hoperands, Junction.dual_dual]

theorem negated_inj {a b : Condition} (ha : a.Tidy) (hb : b.Tidy) :
    a.negated = b.negated ↔ a = b := by
  refine ⟨fun h ↦ ?_, fun h ↦ h ▸ rfl⟩
  rw [← negated_negated ha, h, negated_negated hb]

theorem negated_eq_literal {c : Condition} {name : Name} {inverted : Bool} :
    c.negated = .literal name inverted ↔ c = .literal name (!inverted) := by
  cases c <;> simp [negated, Bool.not_eq_eq_eq_not]

end Condition

namespace Junction

open Condition

variable {j : Junction}

/-! ## The rules and their mirror images -/

theorem negated_annihilator (j : Junction) : j.annihilator.negated = j.dual.annihilator := by
  cases j <;> rfl

theorem negated_identity (j : Junction) : j.identity.negated = j.dual.identity := by
  cases j <;> rfl

theorem mem_spliced_negated {c x : Condition} :
    x ∈ j.dual.spliced c.negated ↔ ∃ y ∈ j.spliced c, y.negated = x := by
  cases c with
  | junction k operands =>
    rw [negated_junction]
    by_cases hk : k = j
    · subst hk
      simp [spliced]
    · have hsplit : k.dual ≠ j.dual := mt dual_inj.mp hk
      rw [spliced, if_neg hsplit, spliced, if_neg hk]
      simp [negated_junction, eq_comm]
  | _ => cases j <;> simp [negated, spliced, identity, dual, eq_comm]

theorem flat_negations (l : List Condition) :
    j.dual.flat (l.map negated) = negations (j.flat l) := by
  refine Ascending.ext (Ascending.isAscending_ofList _) (isAscending_negations _) fun x ↦ ?_
  simp only [mem_flat, mem_negations, List.mem_map]
  constructor
  · rintro ⟨-, ⟨c, hc, rfl⟩, hx⟩
    obtain ⟨y, hy, rfl⟩ := mem_spliced_negated.mp hx
    exact ⟨y, ⟨c, hc, hy⟩, rfl⟩
  · rintro ⟨y, ⟨c, hc, hy⟩, rfl⟩
    exact ⟨c.negated, ⟨c, hc, rfl⟩, mem_spliced_negated.mpr ⟨y, hy, rfl⟩⟩

theorem hasComplements_negations (l : List Condition) :
    hasComplements (negations l) = hasComplements l := by
  rw [Bool.eq_iff_iff, hasComplements_iff, hasComplements_iff]
  simp only [mem_negations, negated_eq_literal, exists_eq_right, Bool.not_not]
  exact exists_congr fun name ↦ exists_congr fun inverted ↦ and_comm

theorem width_negated_eq_zero {c : Condition} (h : j.width c = 0) : j.dual.width c.negated = 0 := by
  cases c with
  | junction k inner =>
    rw [negated_junction, width]
    split
    · rfl
    · rename_i hk
      rw [width, if_neg (mt dual_inj.mpr hk), List.length_eq_zero_iff] at h
      rw [h]
      rfl
  | _ => rfl

/-- What absorbs an operand does so after negation. -/
theorem absorbs_negated_of_absorbs {a b : Condition} (ha : a.Tidy) (hb : b.Tidy)
    (h : j.absorbs a b = true) :
    j.dual.absorbs a.negated b.negated = true := by
  obtain ⟨k, inner, rfl, hk, hne, h⟩ := absorbs_elim h
  have hne' := mt (negated_inj ha hb).mp hne
  rw [negated_junction] at hne' ⊢
  refine absorbs_intro (mt dual_inj.mp hk) hne' ?_
  rcases h with ⟨hmem, hwidth⟩ | ⟨k', inner', rfl, hk', hsub⟩
  · exact .inl ⟨mem_negations.mpr ⟨a, hmem, rfl⟩, width_negated_eq_zero hwidth⟩
  · refine .inr ⟨k'.dual, negations inner', negated_junction k' inner', mt dual_inj.mp hk',
      fun x hx ↦ ?_⟩
    obtain ⟨c, hc, rfl⟩ := mem_negations.mp hx
    exact mem_negations.mpr ⟨c, hsub c hc, rfl⟩

theorem absorbs_negated {a b : Condition} (ha : a.Tidy) (hb : b.Tidy) :
    j.dual.absorbs a.negated b.negated = j.absorbs a b := by
  refine Bool.eq_iff_iff.mpr ⟨fun h ↦ ?_, absorbs_negated_of_absorbs ha hb⟩
  have hback := absorbs_negated_of_absorbs (tidy_negated a) (tidy_negated b) h
  rwa [dual_dual, negated_negated ha, negated_negated hb] at hback

theorem unabsorbed_negations {l : List Condition} (ht : ∀ c ∈ l, c.Tidy) :
    j.dual.unabsorbed (negations l) = negations (j.unabsorbed l) := by
  refine Ascending.ext (List.Pairwise.filter _ (isAscending_negations l))
    (isAscending_negations _) fun x ↦ ?_
  simp only [mem_unabsorbed, mem_negations]
  constructor
  · rintro ⟨⟨c, hc, rfl⟩, hnot⟩
    refine ⟨c, ⟨hc, fun other hother ↦ ?_⟩, rfl⟩
    rw [← absorbs_negated (ht other hother) (ht c hc)]
    exact hnot _ ⟨other, hother, rfl⟩
  · rintro ⟨c, ⟨hc, hnot⟩, rfl⟩
    refine ⟨⟨c, hc, rfl⟩, ?_⟩
    rintro - ⟨other, hother, rfl⟩
    rw [absorbs_negated (ht other hother) (ht c hc)]
    exact hnot other hother

private theorem two_le_length {l : List Condition} {a b : Condition} (ha : a ∈ l) (hb : b ∈ l)
    (hne : a ≠ b) :
    2 ≤ l.length := by
  match l with
  | [] => exact absurd ha List.not_mem_nil
  | [x] => exact absurd ((List.mem_singleton.mp ha).trans (List.mem_singleton.mp hb).symm) hne
  | x :: y :: rest => simp

theorem negated_join {l : List Condition} (hasc : IsAscending l) (ht : ∀ c ∈ l, c.Tidy) :
    (j.join l).negated = j.dual.join (negations l) := by
  match l with
  | [] => exact negated_identity j
  | [c] => rfl
  | a :: b :: rest =>
    -- Negation keeps the first two operands apart, so two are left.
    have hne : a ≠ b := by
      rintro rfl
      have hlt := (Ascending.isAscending_cons.mp hasc).1 a (by simp)
      simp at hlt
    have hne' := mt (negated_inj (ht a (by simp)) (ht b (by simp))).mp hne
    have htwo : 2 ≤ (negations (a :: b :: rest)).length :=
      two_le_length (mem_negations.mpr ⟨a, by simp, rfl⟩) (mem_negations.mpr ⟨b, by simp, rfl⟩) hne'
    rw [join_of_two htwo]
    exact negated_junction j _

/-- **Reducing a junction commutes with negation.** -/
theorem negated_reduce {l : List Condition} (ht : ∀ c ∈ l, c.Tidy) :
    (j.reduce l).negated = j.dual.reduce (l.map negated) := by
  by_cases hann : j.annihilator ∈ l
  · rw [reduce_of_mem hann, negated_annihilator, reduce_of_mem]
    exact List.mem_map.mpr ⟨_, hann, negated_annihilator j⟩
  · have hann' : j.dual.annihilator ∉ l.map negated := by
      rw [← negated_annihilator, List.mem_map]
      rintro ⟨c, hc, heq⟩
      have htidy : j.annihilator.Tidy := by cases j <;> constructor
      exact hann ((negated_inj (ht c hc) htidy).mp heq ▸ hc)
    have htidy : ∀ c ∈ j.flat l, c.Tidy := by
      intro x hx
      obtain ⟨c, hc, hx⟩ := mem_flat.mp hx
      exact (ht c hc).spliced j x hx
    rw [reduce_of_notMem hann, reduce_of_notMem hann', flat_negations, hasComplements_negations,
      unabsorbed_negations htidy, apply_ite negated, negated_annihilator,
      negated_join (isAscending_unabsorbed_flat l) fun c hc ↦ htidy c (mem_unabsorbed.mp hc).1]

end Junction

namespace Condition

/-- **Simplifying commutes with negation.** -/
theorem simplify_negated (c : Condition) : c.negated.simplify = c.simplify.negated := by
  induction c using Condition.induction with
  | always => rfl
  | never => rfl
  | literal name inverted => rfl
  | junction kind operands ih =>
    have hmap : (operands.map negated).map simplify = (operands.map simplify).map negated := by
      simpa using ih
    have htidy : ∀ c ∈ operands.map simplify, c.Tidy :=
      fun c hc ↦ (canonical_of_mem_map_simplify c hc).tidy
    rw [negated_junction, negations, Junction.simplify_ofList, hmap,
      ← Junction.negated_reduce htidy, simplify, simplifyEach_eq_map]

theorem not_eq_negated (c : Condition) : c.not = c.simplify.negated := simplify_negated c

theorem canonical_not (c : Condition) : c.not.Canonical := canonical_simplify _

theorem not_not_eq (c : Condition) : c.not.not = c.simplify := by
  rw [not_eq_negated c.not, (canonical_not c).simplify_eq, not_eq_negated,
    negated_negated (tidy_simplify c)]

/-- Negation exchanges the combinators. -/
theorem not_combinator (j : Junction) (a b : Condition) :
    (j.combinator a b).not = j.dual.combinator a.not b.not := by
  have hcanonical : ∀ c ∈ [a.simplify, b.simplify], c.Canonical := by simp [canonical_simplify]
  calc (j.combinator a b).not
      = (j.reduce [a.simplify, b.simplify]).negated := by
        rw [not_eq_negated, Junction.combinator_eq_reduce,
          (Junction.canonical_reduce hcanonical).simplify_eq]
    _ = j.dual.reduce [a.simplify.negated, b.simplify.negated] :=
      Junction.negated_reduce fun c hc ↦ (hcanonical c hc).tidy
    _ = j.dual.reduce [a.not.simplify, b.not.simplify] := by
        rw [(canonical_not a).simplify_eq, (canonical_not b).simplify_eq, not_eq_negated,
          not_eq_negated]
    _ = j.dual.combinator a.not b.not := (Junction.combinator_eq_reduce _ _ _).symm

/-- **Negation mirrors conditions.** The negation of a condition is the mirror image of its
simplified form. So negating twice simplifies, and negation exchanges `and` and `or`. -/
theorem negation_mirrors (a b : Condition) :
    a.not.not = a.simplify ∧ (a.and b).not = a.not.or b.not ∧ (a.or b).not = a.not.and b.not ∧
    ∀ c, Mirrors a.simplify c ↔ c = a.not := by
  refine ⟨not_not_eq a, not_combinator .all a b, not_combinator .any a b, fun c ↦ ?_⟩
  rw [mirrors_iff, not_eq_negated]

end Condition
end ResponseModels
