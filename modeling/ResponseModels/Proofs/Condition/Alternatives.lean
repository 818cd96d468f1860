import ResponseModels.Proofs.Condition.Canonical
import ResponseModels.Proofs.Condition.Directives

/-!
# Conditions as alternatives

A field may be got to on several ways. Along each of them the conditions are joined by `and`, which
gives a clause, and the clauses are joined by `or`. So the condition of a field says which of
several clauses have to hold (`Alternatives`), and unless it is written `never`, some values of the
variables meet it (`Alternatives.exists_eval`).

That nothing is left to simplify shows in the literals. No two of the alternatives are complementary
literals, and the literals of one do not include those of another: it would be absorbed by that one
(`Term.eq_of_subset`).
-/

set_option autoImplicit false

namespace ResponseModels

open Ascending (IsAscending)

namespace Condition

/-! ## Statements -/

/-- No variable is asked for both plain and inverted. -/
def Consistent (operands : List Condition) : Prop :=
  ∀ name, ¬(.literal name false ∈ operands ∧ .literal name true ∈ operands)

/-- A literal, or a conjunction of two or more literals that is consistent. -/
inductive Term : Condition → Prop
  | literal (name : Name) (inverted : Bool) : Term (.literal name inverted)
  | all {operands : List Condition} (two : 2 ≤ operands.length) (ascending : IsAscending operands)
      (literals : ∀ c ∈ operands, ∃ name inverted, c = .literal name inverted)
      (consistent : Consistent operands) :
      Term (.junction .all operands)

/-- The literals that a term asks for. -/
def literals : Condition → List Condition
  | .junction .all operands => operands
  | c => [c]

/-- The condition that always holds, a term, or a disjunction of two or more terms, none of which
asks for all the literals of another. -/
inductive Alternatives : Condition → Prop
  | always : Alternatives .always
  | term {c : Condition} (h : c.Term) : Alternatives c
  | any {operands : List Condition} (two : 2 ≤ operands.length) (ascending : IsAscending operands)
      (terms : ∀ c ∈ operands, c.Term) (consistent : Consistent operands)
      (incomparable : ∀ c ∈ operands, ∀ c' ∈ operands, c ≠ c' → ¬ c.literals ⊆ c'.literals) :
      Alternatives (.junction .any operands)

/-- Nothing is left to simplify, some values of the variables meet the condition, and it is written
as alternatives. -/
structure Proper (c : Condition) : Prop where
  /-- Simplifying changes nothing. -/
  simplified : c.simplify = c
  /-- Some values of the variables meet it. -/
  satisfiable : ∃ v, c.eval v = true
  /-- It is written as alternatives. -/
  alternatives : c.Alternatives

/-! ## Terms -/

theorem consistent_iff {l : List Condition} : Consistent l ↔ Junction.hasComplements l = false := by
  rw [Bool.eq_false_iff, ne_eq, Junction.hasComplements_iff]
  constructor
  · rintro h ⟨name, inverted, hmem, hinv⟩
    cases inverted with
    | false => exact h name ⟨hmem, hinv⟩
    | true => exact h name ⟨hinv, hmem⟩
  · rintro h name ⟨hplain, hinverted⟩
    exact h ⟨name, false, hplain, hinverted⟩

theorem Clause.term {c : Condition} (h : c.Clause) (hcanonical : c.Canonical)
    (halways : c ≠ .always) (hnever : c ≠ .never) : c.Term := by
  cases h with
  | always => exact absurd rfl halways
  | never => exact absurd rfl hnever
  | literal name inverted => exact .literal name inverted
  | junction literals consistent =>
    cases hcanonical with
    | junction two ascending => exact .all two ascending literals (consistent_iff.mpr consistent)

theorem Term.exists_eval {c : Condition} (h : c.Term) : ∃ v, c.eval v = true := by
  cases h with
  | literal name inverted => exact (Clause.literal name inverted).exists_eval (by rintro ⟨⟩)
  | all _ _ literals consistent =>
    exact (Clause.junction literals (consistent_iff.mp consistent)).exists_eval (by rintro ⟨⟩)

/-- **A term that has the literals of another is the other one or absorbed by it.** -/
theorem Term.eq_of_subset {c c' : Condition} (h : c.Term) (h' : c'.Term)
    (hsub : c.literals ⊆ c'.literals) (habsorbs : Junction.any.absorbs c c' = false) : c = c' := by
  cases h' with
  | literal name inverted =>
    cases h with
    | literal => exact List.mem_singleton.mp (hsub (List.mem_singleton_self _))
    | all two ascending =>
      -- Two literals do not fit into one.
      have hsublist := Ascending.sublist_of_subset ascending (List.pairwise_singleton _ _) hsub
      exact absurd (Nat.le_trans two hsublist.length_le) (by simp)
  | @all operands' =>
    refine Decidable.byContradiction fun hne ↦ ?_
    have hjunction : Junction.all ≠ Junction.any := by rintro ⟨⟩
    have habsorbed : Junction.any.absorbs c (.junction .all operands') = true := by
      refine Junction.absorbs_intro hjunction hne ?_
      cases h with
      | literal => exact .inl ⟨hsub (List.mem_singleton_self _), rfl⟩
      | all => exact .inr ⟨.all, _, rfl, hjunction, fun x hx ↦ hsub hx⟩
    rw [habsorbs] at habsorbed
    cases habsorbed

/-! ## Disjunctions of clauses -/

/-- A disjunction that is reduced is made of terms, if it is made of clauses. -/
theorem term_of_mem_flat {operands : List Condition} (hclause : ∀ c ∈ operands, c.Clause)
    (hcanonical : ∀ c ∈ operands, c.Canonical) (halways : .always ∉ operands) :
    ∀ x ∈ Junction.any.flat operands, x.Term := by
  intro x hx
  obtain ⟨hxcanonical, hadmits⟩ := Junction.of_mem_flat (j := .any) hcanonical halways x hx
  obtain ⟨c, hc, hx⟩ := Junction.mem_flat.mp hx
  have hxc : x = c := by
    have hclause := hclause c hc
    cases hclause with
    | never => simp [Junction.spliced, Junction.identity] at hx
    | _ => simpa [Junction.spliced, Junction.identity] using hx
  subst hxc
  refine (hclause x hc).term hxcanonical ?_ ?_
  · rintro rfl
    exact hadmits
  · rintro rfl
    exact hadmits

/-- **The disjunction of clauses is written as alternatives**, unless there are none. -/
theorem alternatives_reduce {operands : List Condition} (hclause : ∀ c ∈ operands, c.Clause)
    (hcanonical : ∀ c ∈ operands, c.Canonical) (hnever : Junction.any.reduce operands ≠ .never) :
    (Junction.any.reduce operands).Alternatives := by
  by_cases halways : .always ∈ operands
  · rw [Junction.reduce_of_mem halways]
    exact .always
  have hterms := term_of_mem_flat hclause hcanonical halways
  rw [Junction.reduce_of_notMem halways] at hnever ⊢
  split at hnever
  · rename_i hcomplements
    rw [if_pos hcomplements]
    exact .always
  rename_i hcomplements
  rw [if_neg hcomplements]
  have hascending := Junction.isAscending_unabsorbed_flat (j := .any) operands
  have hkept :=
    fun x ↦ Junction.mem_unabsorbed (j := .any) (l := Junction.any.flat operands) (c := x)
  match hl : Junction.any.unabsorbed (Junction.any.flat operands) with
  | [] =>
    rw [hl] at hnever
    exact absurd rfl hnever
  | [c] => exact .term (hterms c ((hkept c).mp (hl ▸ List.mem_singleton_self c)).1)
  | a :: b :: rest =>
    rw [hl] at hascending hkept
    refine .any (by simp) hascending (fun c hc ↦ hterms c ((hkept c).mp hc).1) ?_ ?_
    · rintro name ⟨hplain, hinverted⟩
      have hconsistent := consistent_iff.mpr (Bool.eq_false_iff.mpr hcomplements)
      exact hconsistent name ⟨((hkept _).mp hplain).1, ((hkept _).mp hinverted).1⟩
    · intro c hc c' hc' hne hsub
      obtain ⟨hc, -⟩ := (hkept c).mp hc
      obtain ⟨hc', hnot⟩ := (hkept c').mp hc'
      exact hne ((hterms c hc).eq_of_subset (hterms c' hc') hsub (hnot c hc))

/-- **Alternatives can be met**: any one of them will do. -/
theorem Alternatives.exists_eval {c : Condition} (h : c.Alternatives) : ∃ v, c.eval v = true := by
  cases h with
  | always => exact ⟨fun _ ↦ true, rfl⟩
  | term h => exact h.exists_eval
  | @any operands two ascending terms consistent incomparable =>
    obtain ⟨x, hx⟩ := List.exists_mem_of_length_pos (Nat.lt_of_lt_of_le Nat.zero_lt_two two)
    obtain ⟨v, hv⟩ := (terms x hx).exists_eval
    exact ⟨v, (eval_junction v .any operands).mpr ⟨x, hx, hv⟩⟩

/-- **What comes of joining clauses by `or` is proper**, unless it is written `never`. -/
theorem proper_reduce {operands : List Condition} (hclause : ∀ c ∈ operands, c.Clause)
    (hcanonical : ∀ c ∈ operands, c.Canonical) (hnever : Junction.any.reduce operands ≠ .never) :
    (Junction.any.reduce operands).Proper where
  simplified := (Junction.canonical_reduce hcanonical).simplify_eq
  satisfiable := (alternatives_reduce hclause hcanonical hnever).exists_eval
  alternatives := alternatives_reduce hclause hcanonical hnever

theorem proper_always : Proper .always where
  simplified := rfl
  satisfiable := ⟨fun _ ↦ true, rfl⟩
  alternatives := .always

end Condition
end ResponseModels
