import ResponseModels.Proofs.Condition.Meaning

/-!
# Canonical conditions

A condition is *canonical* if no rule of simplification applies to it any more. Simplifying makes
conditions canonical (`canonical_simplify`) and leaves canonical ones as they are
(`Canonical.simplify_eq`).

Canonical conditions are combined as sets: what comes of joining several of them does not depend on
the order, on repetitions, or on how they are grouped (`Junction.reduce_reduce_append`). So a
condition that was put together by `or`, one declaration after the other, depends on the set of the
conditions only (`foldl_or_eq`).

The argument about grouping is about absorption. Reducing a part of the operands first loses those
that others of the part absorb. But what absorbs an operand absorbs everything that the operand
absorbs (`Junction.absorbs_trans`), and an absorbed operand is always absorbed by one that is not
absorbed itself, so nothing is missed later. Literals are never absorbed, so no pair of complements
is lost either.
-/

set_option autoImplicit false

namespace ResponseModels

open Ascending (IsAscending)

/-- What can stand as an operand in a canonical junction: no constant, and no junction of the same
kind. -/
def Junction.Admits (j : Junction) : Condition → Prop
  | .always | .never => False
  | .literal .. => True
  | .junction k _ => k ≠ j

namespace Condition

/-- No rule of simplification applies to the condition. -/
inductive Canonical : Condition → Prop
  | always : Canonical .always
  | never : Canonical .never
  | literal (name : Name) (inverted : Bool) : Canonical (.literal name inverted)
  | junction {kind : Junction} {operands : List Condition} (two : 2 ≤ operands.length)
      (ascending : IsAscending operands) (each : ∀ c ∈ operands, Canonical c)
      (admitted : ∀ c ∈ operands, kind.Admits c)
      (consistent : Junction.hasComplements operands = false)
      (unabsorbed : kind.unabsorbed operands = operands) : Canonical (.junction kind operands)

theorem Canonical.tidy {c : Condition} (h : c.Canonical) : c.Tidy := by
  induction h with
  | always => exact .always
  | never => exact .never
  | literal name inverted => exact .literal name inverted
  | junction _ ascending _ _ _ _ ih => exact .junction ascending ih

end Condition

namespace Junction

open Condition

variable {j : Junction}

/-! ## Splicing and joining -/

theorem spliced_of_admits {c : Condition} (h : j.Admits c) : j.spliced c = [c] := by
  cases c with
  | always => exact h.elim
  | never => exact h.elim
  | literal name inverted => cases j <;> simp [spliced, identity]
  | junction k operands => rw [spliced, if_neg h]

theorem of_mem_spliced {c : Condition} (h : c.Canonical) (hc : c ≠ j.annihilator) :
    ∀ x ∈ j.spliced c, x.Canonical ∧ j.Admits x := by
  intro x hx
  cases h with
  | always => cases j <;> simp_all [spliced, identity, annihilator]
  | never => cases j <;> simp_all [spliced, identity, annihilator]
  | literal name inverted =>
    have hadmits : j.Admits (.literal name inverted) := trivial
    rw [spliced_of_admits hadmits, List.mem_singleton] at hx
    exact hx ▸ ⟨.literal name inverted, hadmits⟩
  | @junction k operands two ascending each admitted consistent unabsorbed =>
    rw [spliced] at hx
    split at hx
    · rename_i hk
      exact ⟨each x hx, hk ▸ admitted x hx⟩
    · rename_i hk
      rw [List.mem_singleton.mp hx]
      exact ⟨.junction two ascending each admitted consistent unabsorbed, hk⟩

theorem mem_spliced_join {l : List Condition} (h : ∀ c ∈ l, j.Admits c) {x : Condition} :
    x ∈ j.spliced (j.join l) ↔ x ∈ l := by
  match l with
  | [] => cases j <;> simp [join, identity, spliced]
  | [c] => rw [join, spliced_of_admits (h c (List.mem_singleton_self c))]
  | a :: b :: rest =>
    change x ∈ j.spliced (.junction j (a :: b :: rest)) ↔ _
    rw [spliced, if_pos rfl]

theorem join_ne_annihilator {l : List Condition} (h : ∀ c ∈ l, j.Admits c) :
    j.join l ≠ j.annihilator := by
  match l with
  | [] => cases j <;> simp [join, identity, annihilator]
  | [c] =>
    have hc := h c (List.mem_singleton_self c)
    rintro (rfl : c = j.annihilator)
    cases j <;> exact hc
  | a :: b :: rest => cases j <;> simp [join, annihilator]

theorem join_of_two {operands : List Condition} (h : 2 ≤ operands.length) :
    j.join operands = .junction j operands := by
  match operands, h with
  | a :: b :: rest, _ => rfl

/-- The operands of the junctions of the same kind, in place of these, and without constants. -/
def flat (j : Junction) (operands : List Condition) : List Condition :=
  Ascending.ofList (operands.flatMap j.spliced)

@[simp] theorem mem_flat {operands : List Condition} {x : Condition} :
    x ∈ j.flat operands ↔ ∃ c ∈ operands, x ∈ j.spliced c := by
  rw [flat, Ascending.mem_ofList, List.mem_flatMap]

theorem of_mem_flat {operands : List Condition} (h : ∀ c ∈ operands, c.Canonical)
    (hann : j.annihilator ∉ operands) : ∀ x ∈ j.flat operands, x.Canonical ∧ j.Admits x := by
  intro x hx
  obtain ⟨c, hc, hx⟩ := mem_flat.mp hx
  exact of_mem_spliced (h c hc) (fun heq ↦ hann (heq ▸ hc)) x hx

theorem reduce_of_mem {operands : List Condition} (h : j.annihilator ∈ operands) :
    j.reduce operands = j.annihilator := by
  rw [reduce, if_pos h]

theorem reduce_of_notMem {operands : List Condition} (h : j.annihilator ∉ operands) :
    j.reduce operands =
      if hasComplements (j.flat operands) then j.annihilator else
        j.join (j.unabsorbed (j.flat operands)) := by
  rw [reduce, if_neg h]
  rfl

/-- **Junctions are reduced as sets of operands.** -/
theorem reduce_congr {l m : List Condition} (h : ∀ c, c ∈ l ↔ c ∈ m) : j.reduce l = j.reduce m := by
  have hflat : j.flat l = j.flat m := by
    refine Ascending.ext (Ascending.isAscending_ofList _)
      (Ascending.isAscending_ofList _) fun x ↦ ?_
    simp [h]
  by_cases hann : j.annihilator ∈ l
  · rw [reduce_of_mem hann, reduce_of_mem ((h _).mp hann)]
  · rw [reduce_of_notMem hann, reduce_of_notMem fun hm ↦ hann ((h _).mpr hm), hflat]

/-! ## Complements and absorption -/

theorem hasComplements_iff {l : List Condition} :
    hasComplements l = true ↔ ∃ name inverted, .literal name inverted ∈ l ∧
      .literal name (!inverted) ∈ l := by
  rw [hasComplements, List.any_eq_true]
  constructor
  · rintro ⟨c, hc, h⟩
    split at h
    · exact ⟨_, _, hc, of_decide_eq_true h⟩
    · cases h
  · rintro ⟨name, inverted, hmem, hinv⟩
    exact ⟨_, hmem, decide_eq_true hinv⟩

theorem mem_unabsorbed {l : List Condition} {c : Condition} :
    c ∈ j.unabsorbed l ↔ c ∈ l ∧ ∀ other ∈ l, j.absorbs other c = false := by
  simp [unabsorbed]

/-- A literal is never absorbed. -/
theorem literal_mem_unabsorbed {l : List Condition} {name : Name} {inverted : Bool} :
    Condition.literal name inverted ∈ j.unabsorbed l ↔ Condition.literal name inverted ∈ l := by
  simp [mem_unabsorbed, absorbs]

theorem absorbs_intro {k : Junction} {inner : List Condition} {other : Condition} (hk : k ≠ j)
    (hne : other ≠ .junction k inner)
    (h : other ∈ inner ∧ j.width other = 0 ∨
      ∃ k' inner', other = .junction k' inner' ∧ k' ≠ j ∧ ∀ c ∈ inner', c ∈ inner) :
    j.absorbs other (.junction k inner) = true := by
  have hmem : other ∈ inner → inner.contains other = true := List.contains_iff_mem.mpr
  cases other with
  | junction k' inner' =>
    by_cases hk' : k' = j
    · rcases h with ⟨hin, -⟩ | ⟨_, _, heq, hother, -⟩
      · simp_all [absorbs]
      · cases heq
        exact absurd hk' hother
    · rcases h with ⟨-, hwidth⟩ | ⟨_, _, heq, -, hsub⟩
      · rw [width, if_neg hk', List.length_eq_zero_iff] at hwidth
        simp_all [absorbs]
      · cases heq
        simp_all [absorbs]
  | _ => simp_all [absorbs]

/-- What absorbs an operand absorbs what the operand absorbs. -/
theorem absorbs_trans {a b c : Condition} (ha : a.Tidy) (hb : b.Tidy) (hc : c.Tidy)
    (hab : j.absorbs a b = true) (hbc : j.absorbs b c = true) : j.absorbs a c = true := by
  have hne : a ≠ c := by
    -- The widths tell them apart.
    rintro rfl
    have hlt := width_lt_of_absorbs hab ha hb
    have hlt' := width_lt_of_absorbs hbc hb hc
    omega
  obtain ⟨k, inner, rfl, hk, -, hab⟩ := absorbs_elim hab
  obtain ⟨k', inner', rfl, hk', -, hbc⟩ := absorbs_elim hbc
  have hsub : ∀ x ∈ inner, x ∈ inner' := by
    rcases hbc with ⟨-, hwidth⟩ | ⟨k₁, inner₁, heq, -, hsub⟩
    · -- An operand of width zero absorbs nothing, as it would have no operands to be absorbed for.
      rcases hab with ⟨hmem, -⟩ | ⟨k₂, inner₂, rfl, hk₂, hsub₂⟩
      · rw [width, if_neg hk] at hwidth
        rw [List.length_eq_zero_iff.mp hwidth] at hmem
        exact absurd hmem List.not_mem_nil
      · rw [width, if_neg hk] at hwidth
        rw [List.length_eq_zero_iff.mp hwidth]
        exact fun x hx ↦ absurd hx List.not_mem_nil
    · cases heq
      exact hsub
  refine absorbs_intro hk' hne ?_
  rcases hab with ⟨hmem, hwidth⟩ | ⟨k₂, inner₂, rfl, hk₂, hsub₂⟩
  · exact .inl ⟨hsub a hmem, hwidth⟩
  · exact .inr ⟨k₂, inner₂, rfl, hk₂, fun x hx ↦ hsub x (hsub₂ x hx)⟩

/-- What is absorbed at all is absorbed by an operand that is not absorbed itself. -/
theorem exists_unabsorbed_absorbs {l : List Condition} (ht : ∀ c ∈ l, c.Tidy) {other c : Condition}
    (hother : other ∈ l) (hc : c.Tidy) (h : j.absorbs other c = true) :
    ∃ x ∈ j.unabsorbed l, j.absorbs x c = true := by
  induction hn : j.width other using Nat.strongRecOn generalizing other with
  | ind n ih =>
    by_cases habs : ∃ x ∈ l, j.absorbs x other = true
    · obtain ⟨x, hx, hxo⟩ := habs
      have hlt := width_lt_of_absorbs hxo (ht x hx) (ht other hother)
      exact ih _ (hn ▸ hlt) hx (absorbs_trans (ht x hx) (ht other hother) hc hxo h) rfl
    · refine ⟨other, mem_unabsorbed.mpr ⟨hother, fun x hx ↦ ?_⟩, h⟩
      exact Bool.eq_false_iff.mpr fun hxo ↦ habs ⟨x, hx, hxo⟩

/-! ## Canonical junctions -/

theorem canonical_join {l : List Condition} (hasc : IsAscending l)
    (h : ∀ c ∈ l, c.Canonical ∧ j.Admits c) (hcompl : hasComplements l = false)
    (hun : j.unabsorbed l = l) : (j.join l).Canonical := by
  match l with
  | [] => cases j <;> constructor
  | [c] => exact (h c (List.mem_singleton_self c)).1
  | a :: b :: rest =>
    exact .junction (by simp) hasc (fun c hc ↦ (h c hc).1) (fun c hc ↦ (h c hc).2) hcompl hun

/-- Absorption is over after one round. -/
theorem unabsorbed_unabsorbed (l : List Condition) :
    j.unabsorbed (j.unabsorbed l) = j.unabsorbed l := by
  rw [unabsorbed.eq_1 j (j.unabsorbed l), List.filter_eq_self]
  intro c hc
  have hnot := (mem_unabsorbed.mp hc).2
  simp only [Bool.not_eq_true', List.any_eq_false]
  exact fun other hother ↦ by simp [hnot other (mem_unabsorbed.mp hother).1]

theorem isAscending_unabsorbed_flat (operands : List Condition) :
    IsAscending (j.unabsorbed (j.flat operands)) :=
  List.Pairwise.filter _ (Ascending.isAscending_ofList _)

/-- **Reducing canonical operands gives a canonical condition.** -/
theorem canonical_reduce {operands : List Condition} (h : ∀ c ∈ operands, c.Canonical) :
    (j.reduce operands).Canonical := by
  have hdecided : j.annihilator.Canonical := by cases j <;> constructor
  by_cases hann : j.annihilator ∈ operands
  · rwa [reduce_of_mem hann]
  · rw [reduce_of_notMem hann]
    split
    · exact hdecided
    · rename_i hcompl
      have hflat := of_mem_flat h hann
      refine canonical_join (isAscending_unabsorbed_flat operands)
        (fun c hc ↦ hflat c (mem_unabsorbed.mp hc).1) ?_ (unabsorbed_unabsorbed _)
      rw [Bool.eq_false_iff, ne_eq, hasComplements_iff]
      rw [hasComplements_iff] at hcompl
      simpa [literal_mem_unabsorbed] using hcompl

theorem reduce_of_canonical {operands : List Condition}
    (h : (Condition.junction j operands).Canonical) :
    j.reduce operands = .junction j operands := by
  cases h with
  | junction two ascending each admitted consistent unabsorbed =>
    have hann : j.annihilator ∉ operands := by
      intro hmem
      have := admitted _ hmem
      cases j <;> exact this
    have hflat : j.flat operands = operands := by
      refine Ascending.ext (Ascending.isAscending_ofList _) ascending fun x ↦ ?_
      rw [mem_flat]
      constructor
      · rintro ⟨c, hc, hx⟩
        rw [spliced_of_admits (admitted c hc), List.mem_singleton] at hx
        exact hx ▸ hc
      · exact fun hx ↦
          ⟨x, hx, by rw [spliced_of_admits (admitted x hx)]; exact List.mem_singleton_self x⟩
    rw [reduce_of_notMem hann, hflat, consistent, unabsorbed]
    exact join_of_two two

/-- A canonical condition joined with nothing stays as it is. -/
theorem reduce_singleton {c : Condition} (h : c.Canonical) : j.reduce [c] = c := by
  have hadmitted : j.Admits c → j.reduce [c] = c := by
    intro hadmits
    have hann : j.annihilator ∉ [c] := by
      rw [List.mem_singleton]
      rintro rfl
      cases j <;> exact hadmits
    have hflat : j.flat [c] = [c] := by
      simp [flat, spliced_of_admits hadmits, Ascending.ofList, Ascending.insert]
    have hcompl : hasComplements [c] = false := by
      rw [Bool.eq_false_iff, ne_eq, hasComplements_iff]
      rintro ⟨name, inverted, hmem, hinv⟩
      rw [List.mem_singleton] at hmem hinv
      rw [← hmem] at hinv
      cases inverted <;> simp at hinv
    have hself : j.absorbs c c = false := by cases c <;> simp [absorbs]
    have hun : j.unabsorbed [c] = [c] := by simp [unabsorbed, hself]
    rw [reduce_of_notMem hann, hflat, hcompl, hun]
    rfl
  cases h with
  | always => cases j <;> rfl
  | never => cases j <;> rfl
  | literal name inverted => exact hadmitted trivial
  | @junction k operands two ascending each admitted consistent unabsorbed =>
    by_cases hk : k = j
    · subst hk
      have hcanonical : (Condition.junction k operands).Canonical :=
        .junction two ascending each admitted consistent unabsorbed
      have hann : k.annihilator ∉ [Condition.junction k operands] := by
        cases k <;> simp [annihilator]
      have hflat : k.flat [.junction k operands] = operands := by
        refine Ascending.ext (Ascending.isAscending_ofList _) ascending fun x ↦ ?_
        simp [spliced]
      rw [reduce_of_notMem hann, hflat, consistent, unabsorbed]
      exact join_of_two two
    · exact hadmitted hk

/-! ## Grouping -/

/-- **Operands can be reduced in groups.** -/
theorem reduce_reduce_append {l m : List Condition} (hl : ∀ c ∈ l, c.Canonical)
    (hm : ∀ c ∈ m, c.Canonical) : j.reduce (j.reduce l :: m) = j.reduce (l ++ m) := by
  by_cases hannm : j.annihilator ∈ m
  · rw [reduce_of_mem (List.mem_cons_of_mem _ hannm), reduce_of_mem (List.mem_append_right _ hannm)]
  by_cases hannl : j.annihilator ∈ l
  · rw [reduce_of_mem hannl, reduce_of_mem List.mem_cons_self,
      reduce_of_mem (List.mem_append_left _ hannl)]
  have hann : j.annihilator ∉ l ++ m := by simp [hannl, hannm]
  have hflatl := of_mem_flat hl hannl
  have htidyl : ∀ x ∈ j.flat l, x.Tidy := fun x hx ↦ (hflatl x hx).1.tidy
  have htidym : ∀ x ∈ j.flat m, x.Tidy := fun x hx ↦ (of_mem_flat hm hannm x hx).1.tidy
  have hflat : ∀ x, x ∈ j.flat (l ++ m) ↔ x ∈ j.flat l ∨ x ∈ j.flat m := by
    simp [or_and_right, exists_or]
  by_cases hcompl : hasComplements (j.flat l) = true
  · -- The complements are still there when everything is reduced at once.
    obtain ⟨name, inverted, hmem, hinv⟩ := hasComplements_iff.mp hcompl
    have hall : hasComplements (j.flat (l ++ m)) = true :=
      hasComplements_iff.mpr ⟨name, inverted, (hflat _).mpr (.inl hmem), (hflat _).mpr (.inl hinv)⟩
    rw [reduce_of_notMem hannl, if_pos hcompl, reduce_of_mem List.mem_cons_self,
      reduce_of_notMem hann, if_pos hall]
  · have hkept : ∀ c ∈ j.unabsorbed (j.flat l), j.Admits c :=
      fun c hc ↦ (hflatl c (mem_unabsorbed.mp hc).1).2
    have hann' : j.annihilator ∉ j.join (j.unabsorbed (j.flat l)) :: m := by
      rw [List.mem_cons, not_or]
      exact ⟨(join_ne_annihilator hkept).symm, hannm⟩
    have hflat' : ∀ x, x ∈ j.flat (j.join (j.unabsorbed (j.flat l)) :: m) ↔
        x ∈ j.unabsorbed (j.flat l) ∨ x ∈ j.flat m := by
      intro x
      rw [mem_flat, mem_flat]
      simp only [List.mem_cons, exists_eq_or_imp, mem_spliced_join hkept]
    have hcompls : hasComplements (j.flat (j.join (j.unabsorbed (j.flat l)) :: m)) =
        hasComplements (j.flat (l ++ m)) := by
      rw [Bool.eq_iff_iff, hasComplements_iff, hasComplements_iff]
      simp only [hflat, hflat', literal_mem_unabsorbed]
    have hunabsorbed : j.unabsorbed (j.flat (j.join (j.unabsorbed (j.flat l)) :: m)) =
        j.unabsorbed (j.flat (l ++ m)) := by
      refine Ascending.ext (isAscending_unabsorbed_flat _)
        (isAscending_unabsorbed_flat _) fun x ↦ ?_
      rw [mem_unabsorbed, mem_unabsorbed, hflat, hflat']
      constructor
      · rintro ⟨hx, hnot⟩
        have hx' : x ∈ j.flat l ∨ x ∈ j.flat m := hx.imp_left fun hx ↦ (mem_unabsorbed.mp hx).1
        have htidy : x.Tidy := hx'.elim (htidyl x) (htidym x)
        refine ⟨hx', fun other hother ↦ Bool.eq_false_iff.mpr fun habs ↦ ?_⟩
        rcases (hflat other).mp hother with hother | hother
        · -- What absorbs `x` may be lost, but not without leaving something that absorbs `x` too.
          obtain ⟨y, hy, hyx⟩ := exists_unabsorbed_absorbs htidyl hother htidy habs
          rw [hnot y ((hflat' y).mpr (.inl hy))] at hyx
          cases hyx
        · rw [hnot other ((hflat' other).mpr (.inr hother))] at habs
          cases habs
      · rintro ⟨hx, hnot⟩
        have hnotl : ∀ other ∈ j.flat l, j.absorbs other x = false :=
          fun other hother ↦ hnot other ((hflat other).mpr (.inl hother))
        refine ⟨hx.imp_left fun hx ↦ mem_unabsorbed.mpr ⟨hx, hnotl⟩, fun other hother ↦ ?_⟩
        rcases (hflat' other).mp hother with hother | hother
        · exact hnotl other (mem_unabsorbed.mp hother).1
        · exact hnot other ((hflat other).mpr (.inr hother))
    rw [reduce_of_notMem hannl, if_neg hcompl, reduce_of_notMem hann', reduce_of_notMem hann,
      hcompls, hunabsorbed]

end Junction

/-! ## Simplifying and combining -/

namespace Condition

/-- **Simplifying makes conditions canonical.** -/
theorem canonical_simplify (c : Condition) : c.simplify.Canonical := by
  induction c using Condition.induction with
  | always => exact .always
  | never => exact .never
  | literal name inverted => exact .literal name inverted
  | junction kind operands ih =>
    rw [simplify, simplifyEach_eq_map]
    refine Junction.canonical_reduce fun c hc ↦ ?_
    obtain ⟨operand, hmem, rfl⟩ := List.mem_map.mp hc
    exact ih operand hmem

/-- **Simplifying leaves canonical conditions as they are.** -/
theorem Canonical.simplify_eq {c : Condition} (h : c.Canonical) : c.simplify = c := by
  induction h with
  | always => rfl
  | never => rfl
  | literal name inverted => rfl
  | @junction kind operands two ascending each admitted consistent unabsorbed ih =>
    have hmap : operands.map simplify = operands := (List.map_congr_left ih).trans operands.map_id'
    rw [simplify, simplifyEach_eq_map, hmap]
    exact Junction.reduce_of_canonical (.junction two ascending each admitted consistent unabsorbed)

theorem canonical_and (a b : Condition) : (a.and b).Canonical := canonical_simplify _

theorem canonical_or (a b : Condition) : (a.or b).Canonical := canonical_simplify _

theorem or_eq_reduce {a b : Condition} (ha : a.Canonical) (hb : b.Canonical) :
    a.or b = Junction.any.reduce [a, b] := by
  rw [or, anyOf, simplify, simplifyEach_eq_map]
  refine Junction.reduce_congr fun c ↦ ?_
  simp [ha.simplify_eq, hb.simplify_eq, eq_comm]

/-- **Conditions joined one after the other are joined as a set.** -/
theorem foldl_or_eq {c : Condition} {l : List Condition} (hc : c.Canonical)
    (hl : ∀ x ∈ l, x.Canonical) :
    l.foldl or c = Junction.any.reduce (c :: l) := by
  induction l generalizing c with
  | nil => exact (Junction.reduce_singleton hc).symm
  | cons x l ih =>
    obtain ⟨hx, hl⟩ := List.forall_mem_cons.mp hl
    have hpair : ∀ y ∈ [c, x], y.Canonical := by simp [hc, hx]
    rw [List.foldl_cons, ih (canonical_or c x) hl, or_eq_reduce hc hx,
      Junction.reduce_reduce_append hpair hl]
    rfl

end Condition
end ResponseModels
