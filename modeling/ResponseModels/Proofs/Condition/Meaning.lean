import ResponseModels.Condition.Simplify

/-!
# What simplifying keeps

`Condition.simplify` changes how a condition is written and not when it holds (`eval_simplify`), so
the combinators mean what their names say (`eval_and`, `eval_or`, `eval_not`). `eval_combinators`
puts this together.

The two kinds of junction are treated at once. An operand with the value `Junction.decisive` decides
its junction, whichever kind that is, and a junction has that value exactly when some operand has it
(`eval_junction`). A junction of the other kind has it when *all* its operands have it, which is
what makes absorption sound.

Absorption looks at all operands before it removes any, so it has to be shown that not all of the
decisive ones go. Something that absorbs an operand is as decisive as the operand, and it has fewer
operands itself. That is true only of operand lists without repetitions, and that is what `Tidy` is
about: in a simplified condition the operands of every junction ascend.
-/

set_option autoImplicit false

namespace ResponseModels

open Ascending (IsAscending)

/-! ## Junctions and the operands that decide them -/

/-- The value of an operand that decides a junction on its own. -/
def Junction.decisive : Junction → Bool
  | .all => false
  | .any => true

namespace Condition

private theorem eq_of_eq_iff {x y b : Bool} (h : x = b ↔ y = b) : x = y := by
  cases x <;> cases y <;> cases b <;> simp_all

/-- A junction has the decisive value when one of its operands has it. -/
theorem eval_junction (v : Name → Bool) (j : Junction) (l : List Condition) :
    (junction j l).eval v = j.decisive ↔ ∃ c ∈ l, c.eval v = j.decisive := by
  cases j with
  | all => rw [eval, evalAll_eq_all]; simp [Junction.decisive]
  | any => rw [eval, evalAny_eq_any]; simp [Junction.decisive]

theorem eval_junction_congr {v : Name → Bool} {j : Junction} {l m : List Condition}
    (h : (∃ c ∈ l, c.eval v = j.decisive) ↔ ∃ c ∈ m, c.eval v = j.decisive) :
    (junction j l).eval v = (junction j m).eval v :=
  eq_of_eq_iff ((eval_junction v j l).trans (h.trans (eval_junction v j m).symm))

/-- A junction of the other kind has the decisive value when all its operands have it. -/
theorem eval_other_junction {v : Name → Bool} {j k : Junction} (hk : k ≠ j) (l : List Condition) :
    (junction k l).eval v = j.decisive ↔ ∀ c ∈ l, c.eval v = j.decisive := by
  have hne : ∀ b : Bool, b = j.decisive ↔ ¬ b = k.decisive := by
    intro b
    cases j <;> cases k <;> cases b <;> simp_all [Junction.decisive]
  rw [hne, eval_junction]
  constructor
  · intro h c hc
    exact (hne _).mpr fun hd ↦ h ⟨c, hc, hd⟩
  · rintro h ⟨c, hc, hd⟩
    exact (hne _).mp (h c hc) hd

theorem eval_annihilator (v : Name → Bool) (j : Junction) : j.annihilator.eval v = j.decisive := by
  cases j <;> rfl

theorem eval_identity (v : Name → Bool) (j : Junction) : j.identity.eval v ≠ j.decisive := by
  cases j <;> simp [Junction.identity, Junction.decisive, eval]

/-! ## Tidy conditions -/

/-- The operands of every junction in a condition ascend. -/
inductive Tidy : Condition → Prop
  | always : Tidy .always
  | never : Tidy .never
  | literal (name : Name) (inverted : Bool) : Tidy (.literal name inverted)
  | junction {kind : Junction} {operands : List Condition} (ascending : IsAscending operands)
      (each : ∀ c ∈ operands, Tidy c) : Tidy (.junction kind operands)

theorem Tidy.spliced {c : Condition} (h : c.Tidy) (j : Junction) : ∀ x ∈ j.spliced c, x.Tidy := by
  intro x hx
  cases h with
  | junction ascending each =>
    rw [Junction.spliced] at hx
    split at hx
    · exact each x hx
    · rw [List.mem_singleton.mp hx]
      exact .junction ascending each
  | _ =>
    simp only [Junction.spliced] at hx
    split at hx
    · exact absurd hx List.not_mem_nil
    · rw [List.mem_singleton.mp hx]
      constructor

theorem tidy_join (j : Junction) {l : List Condition} (hl : IsAscending l) (h : ∀ c ∈ l, Tidy c) :
    Tidy (j.join l) := by
  match l with
  | [] => cases j <;> constructor
  | [c] => exact h c (List.mem_singleton_self c)
  | a :: b :: rest => exact .junction hl h

theorem tidy_reduce (j : Junction) {operands : List Condition} (h : ∀ c ∈ operands, Tidy c) :
    Tidy (j.reduce operands) := by
  have hdecided : Tidy j.annihilator := by cases j <;> constructor
  rw [Junction.reduce]
  split
  · exact hdecided
  · simp only
    split
    · exact hdecided
    · refine tidy_join j (List.Pairwise.filter _ (Ascending.isAscending_ofList _)) fun c hc ↦ ?_
      obtain ⟨operand, hmem, hc⟩ :=
        List.mem_flatMap.mp (Ascending.mem_ofList.mp (List.mem_filter.mp hc).1)
      exact (h operand hmem).spliced j c hc

theorem tidy_simplify (c : Condition) : c.simplify.Tidy := by
  induction c using Condition.induction with
  | always => exact .always
  | never => exact .never
  | literal name inverted => exact .literal name inverted
  | junction kind operands ih =>
    rw [simplify, simplifyEach_eq_map]
    refine tidy_reduce kind fun c hc ↦ ?_
    obtain ⟨operand, hmem, rfl⟩ := List.mem_map.mp hc
    exact ih operand hmem

end Condition

/-! ## Reducing a junction -/

namespace Junction

open Condition

variable {v : Name → Bool} {j : Junction}

/-- Splicing neither adds nor loses a decisive operand. -/
theorem exists_spliced_iff (c : Condition) :
    (∃ x ∈ j.spliced c, x.eval v = j.decisive) ↔ c.eval v = j.decisive := by
  unfold spliced
  split
  · rename_i k inner
    split
    · rename_i hk
      rw [hk]
      exact (eval_junction v j inner).symm
    · simp
  · split
    · rename_i hc
      subst hc
      simp [eval_identity]
    · simp

/-- A literal beside its inversion decides the junction. -/
theorem exists_decisive_of_hasComplements {l : List Condition} (h : hasComplements l = true) :
    ∃ c ∈ l, c.eval v = j.decisive := by
  rw [hasComplements, List.any_eq_true] at h
  obtain ⟨c, hc, h⟩ := h
  split at h
  · rename_i name inverted
    have hinv := of_decide_eq_true h
    by_cases hd : (Condition.literal name inverted).eval v = j.decisive
    · exact ⟨_, hc, hd⟩
    · refine ⟨_, hinv, ?_⟩
      rw [eval] at hd ⊢
      revert hd
      cases v name <;> cases inverted <;> cases j.decisive <;> decide
  · cases h

/-- How many operands of the other kind's junction an operand holds. -/
def width (j : Junction) : Condition → Nat
  | .junction k inner => if k = j then 0 else inner.length
  | _ => 0

/-- What it means for one operand to make another superfluous. -/
theorem absorbs_elim {other operand : Condition} (h : j.absorbs other operand = true) :
    ∃ k inner, operand = .junction k inner ∧ k ≠ j ∧ other ≠ operand ∧
      (other ∈ inner ∧ j.width other = 0 ∨
        ∃ k' inner', other = .junction k' inner' ∧ k' ≠ j ∧ ∀ c ∈ inner', c ∈ inner) := by
  unfold absorbs at h
  split at h
  · rename_i k inner
    rw [Bool.and_eq_true, Bool.and_eq_true, bne_iff_ne, bne_iff_ne] at h
    obtain ⟨⟨hk, hne⟩, h⟩ := h
    refine ⟨k, inner, rfl, hk, hne, ?_⟩
    split at h
    · rename_i k' inner'
      split at h
      · rename_i hk'
        exact .inl ⟨List.contains_iff_mem.mp h, by rw [width, if_pos hk']⟩
      · rename_i hk'
        refine .inr ⟨k', inner', rfl, hk', fun c hc ↦ ?_⟩
        exact List.contains_iff_mem.mp (List.all_eq_true.mp h c hc)
    · rename_i hother
      refine .inl ⟨List.contains_iff_mem.mp h, ?_⟩
      cases other with
      | junction k' inner' => exact absurd rfl (hother k' inner')
      | _ => rfl
  · cases h

/-- What absorbs a decisive operand is decisive too. -/
private theorem decisive_of_absorbs {other operand : Condition} (h : j.absorbs other operand = true)
    (hd : operand.eval v = j.decisive) : other.eval v = j.decisive := by
  obtain ⟨k, inner, rfl, hk, -, h⟩ := absorbs_elim h
  have hinner := (eval_other_junction hk inner).mp hd
  rcases h with ⟨hmem, -⟩ | ⟨k', inner', rfl, hk', hsub⟩
  · exact hinner other hmem
  · exact (eval_other_junction hk' inner').mpr fun c hc ↦ hinner c (hsub c hc)

/-- What absorbs an operand holds fewer operands itself. -/
theorem width_lt_of_absorbs {other operand : Condition} (h : j.absorbs other operand = true)
    (ho : other.Tidy) (hp : operand.Tidy) : j.width other < j.width operand := by
  obtain ⟨k, inner, rfl, hk, hne, h⟩ := absorbs_elim h
  cases hp with
  | junction ascending each =>
    rw [width.eq_1 j k inner, if_neg hk]
    rcases h with ⟨hmem, hw⟩ | ⟨k', inner', rfl, hk', hsub⟩
    · rw [hw]
      exact List.length_pos_of_mem hmem
    · cases ho with
      | junction ascending' each' =>
        rw [width, if_neg hk']
        have hsl := Ascending.sublist_of_subset ascending' ascending hsub
        refine Nat.lt_of_le_of_ne hsl.length_le fun hlen ↦ hne ?_
        have hkk : k' = k := by cases j <;> cases k <;> cases k' <;> simp_all
        rw [hkk, hsl.eq_of_length hlen]

/-- Absorption leaves a decisive operand if there was one. -/
theorem exists_mem_unabsorbed {l : List Condition} (ht : ∀ c ∈ l, c.Tidy) {c : Condition}
    (hc : c ∈ l) (hd : c.eval v = j.decisive) : ∃ x ∈ j.unabsorbed l, x.eval v = j.decisive := by
  induction hn : j.width c using Nat.strongRecOn generalizing c with
  | ind n ih =>
    by_cases habs : ∃ other ∈ l, j.absorbs other c = true
    · -- What absorbs `c` is decisive and holds fewer operands.
      obtain ⟨other, hother, habs⟩ := habs
      have hlt := width_lt_of_absorbs habs (ht other hother) (ht c hc)
      exact ih _ (hn ▸ hlt) hother (decisive_of_absorbs habs hd) rfl
    · refine ⟨c, List.mem_filter.mpr ⟨hc, ?_⟩, hd⟩
      simpa using habs

theorem eval_join (v : Name → Bool) (j : Junction) (l : List Condition) :
    (j.join l).eval v = (Condition.junction j l).eval v := by
  match l with
  | [] => cases j <;> rfl
  | [c] => exact (by cases j <;> simp [eval, evalAll, evalAny, join])
  | a :: b :: rest => rfl

/-- Reducing a junction keeps its meaning, if its operands are tidy. -/
theorem eval_reduce (v : Name → Bool) (j : Junction) {operands : List Condition}
    (ht : ∀ c ∈ operands, c.Tidy) :
    (j.reduce operands).eval v = (Condition.junction j operands).eval v := by
  rw [reduce]
  split
  · rename_i hann
    rw [eval_annihilator]
    exact ((eval_junction v j operands).mpr ⟨_, hann, eval_annihilator v j⟩).symm
  · simp only
    have hflat : (∃ c ∈ Ascending.ofList (operands.flatMap j.spliced), c.eval v = j.decisive) ↔
        ∃ c ∈ operands, c.eval v = j.decisive := by
      simp only [Ascending.mem_ofList, List.mem_flatMap]
      constructor
      · rintro ⟨x, ⟨c, hc, hx⟩, hd⟩
        exact ⟨c, hc, (exists_spliced_iff c).mp ⟨x, hx, hd⟩⟩
      · rintro ⟨c, hc, hd⟩
        obtain ⟨x, hx, hxd⟩ := (exists_spliced_iff c).mpr hd
        exact ⟨x, ⟨c, hc, hx⟩, hxd⟩
    have htidy : ∀ c ∈ Ascending.ofList (operands.flatMap j.spliced), c.Tidy := by
      intro x hx
      obtain ⟨c, hc, hx⟩ := List.mem_flatMap.mp (Ascending.mem_ofList.mp hx)
      exact (ht c hc).spliced j x hx
    split
    · rename_i hcompl
      rw [eval_annihilator]
      exact ((eval_junction v j operands).mpr
        (hflat.mp (exists_decisive_of_hasComplements hcompl))).symm
    · rw [eval_join]
      refine eval_junction_congr (Iff.trans ⟨?_, ?_⟩ hflat)
      · rintro ⟨c, hc, hd⟩
        exact ⟨c, (List.mem_filter.mp hc).1, hd⟩
      · rintro ⟨c, hc, hd⟩
        exact exists_mem_unabsorbed htidy hc hd

end Junction

/-! ## Simplifying and combining -/

namespace Condition

/-- **Simplifying keeps the meaning of a condition.** -/
theorem eval_simplify (v : Name → Bool) (c : Condition) : c.simplify.eval v = c.eval v := by
  induction c using Condition.induction with
  | always => rfl
  | never => rfl
  | literal name inverted => rfl
  | junction kind operands ih =>
    rw [simplify, simplifyEach_eq_map, Junction.eval_reduce v kind]
    · refine eval_junction_congr ?_
      simp only [List.mem_map]
      constructor
      · rintro ⟨-, ⟨c, hc, rfl⟩, hd⟩
        exact ⟨c, hc, ih c hc ▸ hd⟩
      · rintro ⟨c, hc, hd⟩
        exact ⟨_, ⟨c, hc, rfl⟩, (ih c hc).trans hd⟩
    · intro c hc
      obtain ⟨operand, -, rfl⟩ := List.mem_map.mp hc
      exact tidy_simplify operand

theorem eval_allOf (v : Name → Bool) (l : List Condition) : (allOf l).eval v = l.all (eval v) := by
  rw [allOf, eval, evalAll_eq_all, Bool.eq_iff_iff]
  simp

theorem eval_anyOf (v : Name → Bool) (l : List Condition) : (anyOf l).eval v = l.any (eval v) := by
  rw [anyOf, eval, evalAny_eq_any, Bool.eq_iff_iff]
  simp

@[simp] theorem eval_and (v : Name → Bool) (a b : Condition) :
    (a.and b).eval v = (a.eval v && b.eval v) := by
  rw [and, eval_simplify, eval_allOf]
  simp

@[simp] theorem eval_or (v : Name → Bool) (a b : Condition) :
    (a.or b).eval v = (a.eval v || b.eval v) := by
  rw [or, eval_simplify, eval_anyOf]
  simp

/-- The negation of what decides a junction decides its dual. -/
theorem not_eq_decisive_dual_iff (b : Bool) (j : Junction) :
    (!b) = j.dual.decisive ↔ b = j.decisive := by
  cases b <;> cases j <;> decide

/-- **Pushing a negation down to the literals negates.** At a junction the operands are negated and
the kind is changed, so an operand decides the result where it decided before. -/
theorem eval_negated (v : Name → Bool) (c : Condition) : c.negated.eval v = !c.eval v := by
  induction c using Condition.induction with
  | always => rfl
  | never => rfl
  | literal name inverted =>
    rw [negated, eval, eval]
    cases v name <;> cases inverted <;> rfl
  | junction kind operands ih =>
    have hoperands :
        (∃ c ∈ Ascending.ofList (operands.map negated), c.eval v = kind.dual.decisive) ↔
        ∃ c ∈ operands, c.eval v = kind.decisive := by
      simp only [Ascending.mem_ofList, List.mem_map]
      constructor
      · rintro ⟨-, ⟨c, hc, rfl⟩, hd⟩
        exact ⟨c, hc, (not_eq_decisive_dual_iff _ kind).mp (ih c hc ▸ hd)⟩
      · rintro ⟨c, hc, hd⟩
        exact ⟨_, ⟨c, hc, rfl⟩, (ih c hc).trans ((not_eq_decisive_dual_iff _ kind).mpr hd)⟩
    rw [negated, negatedEach_eq_map]
    apply eq_of_eq_iff (b := kind.dual.decisive)
    rw [eval_junction, hoperands, ← eval_junction, not_eq_decisive_dual_iff]

@[simp] theorem eval_not (v : Name → Bool) (c : Condition) : c.not.eval v = !c.eval v := by
  rw [not, eval_simplify, eval_negated]

/-- **Simplifying and combining keep the meaning.** Whatever the values of the variables, a
conjunction means that all its operands hold and a disjunction that one of them does, so that
without operands the one holds and the other does not. Simplified, any condition means what it meant
before, and the combinators mean conjunction, disjunction and negation. -/
theorem eval_combinators (v : Name → Bool) :
    (∀ operands : List Condition, (junction .all operands).eval v = operands.all (eval v) ∧
      (junction .any operands).eval v = operands.any (eval v)) ∧
    (∀ c : Condition, c.simplify.eval v = c.eval v) ∧
    ∀ a b : Condition, (a.and b).eval v = (a.eval v && b.eval v) ∧
      (a.or b).eval v = (a.eval v || b.eval v) ∧ a.not.eval v = !a.eval v := by
  refine ⟨fun operands ↦ ⟨?_, ?_⟩, eval_simplify v, fun a b ↦
    ⟨eval_and v a b, eval_or v a b, eval_not v a⟩⟩
  · rw [eval, evalAll_eq_all]
  · rw [eval, evalAny_eq_any]

/-- A condition that is not dropped is one that is not written `never`. -/
theorem isNever_eq_true {c : Condition} : c.isNever = true ↔ c = .never := by
  cases c <;> simp [isNever]

end Condition
end ResponseModels
