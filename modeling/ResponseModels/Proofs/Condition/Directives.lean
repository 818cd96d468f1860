import ResponseModels.Condition.Directives
import ResponseModels.Proofs.Condition.Meaning

/-!
# What directives mean

When a document is executed, a selection is left out if it has an `@skip` whose argument is true or
an `@include` whose argument is false. `included` says so for given values of the variables,
directive by directive, and `eval_ofDirectives` says that the condition read off the directives
holds exactly then.

Along a way through fragments such conditions are joined by `and`. What comes of it is always a
`Clause`: a constant, a literal, or a conjunction of literals in which none is the inversion of
another. So a condition on such a way that is not written `never` can be met (`Clause.exists_eval`).
This is why it is enough to look at how a condition is written to know whether a fragment can be
included at all.
-/

set_option autoImplicit false

namespace ResponseModels

/-! ## Execution looks at the directives -/

/-- The value of the `if` argument of a directive, if it is a boolean or a variable. -/
def Directive.test? (v : Name → Bool) (d : Directive) : Option Bool :=
  match d.argument? "if" with
  | some (.boolean b) => some b
  | some (.var name) => some (v name)
  | _ => none

/-- Whether execution goes on to a selection in spite of one of its directives. -/
def Directive.passes (v : Name → Bool) (d : Directive) : Bool :=
  !(d.name == "skip" && d.test? v == some true) && !(d.name == "include" && d.test? v == some false)

/-- Whether a selection with these directives is included. -/
def included (v : Name → Bool) (directives : List Directive) : Bool :=
  directives.all (Directive.passes v)

namespace Condition

theorem passes_of_inversion?_eq_none {v : Name → Bool} {d : Directive}
    (h : inversion? d.name = none) : d.passes v = true := by
  rw [inversion?] at h
  split at h
  · cases h
  · rename_i hskip
    split at h
    · cases h
    · rename_i hinclude
      simp [Directive.passes, hskip, hinclude]

/-- The condition of one directive holds when the directive lets its selection pass. -/
theorem eval_ofDirective {v : Name → Bool} {d : Directive} {inverted : Bool} {c : Condition}
    (hi : inversion? d.name = some inverted) (h : ofDirective d inverted = .ok c) :
    c.eval v = d.passes v := by
  have hpasses : ∀ b, d.test? v = some b → d.passes v = (b != inverted) := by
    intro b hb
    rw [inversion?] at hi
    split at hi
    · rename_i hskip
      cases hi
      cases b <;> simp [Directive.passes, hskip, hb]
    · split at hi
      · rename_i hinclude
        cases hi
        cases b <;> simp [Directive.passes, hinclude, hb]
      · cases hi
  unfold ofDirective at h
  split at h
  · cases h
  · rename_i b harg
    cases h
    rw [hpasses b (by simp [Directive.test?, harg])]
    cases b <;> cases inverted <;> rfl
  · rename_i name harg
    cases h
    rw [hpasses (v name) (by simp [Directive.test?, harg]), eval]
  · cases h

theorem all_eval_stated {v : Name → Bool} {selection : String} {directives : List Directive}
    {found conditions : List Condition} (h : stated selection directives found = .ok conditions) :
    conditions.all (eval v) = (found.all (eval v) && included v directives) := by
  induction directives generalizing found with
  | nil =>
    cases h
    simp [included]
  | cons d rest ih =>
    unfold stated at h
    split at h
    · rename_i hnone
      rw [ih h]
      simp [included, passes_of_inversion?_eq_none hnone]
    · rename_i inverted hi
      obtain ⟨c, hc, h⟩ := Error.bind_eq_ok.mp h
      split at h
      · cases h
      · rw [ih h]
        simp [included, eval_ofDirective hi hc, Bool.and_assoc]

/-- **Directives mean what execution makes of them.** -/
theorem eval_ofDirectives {v : Name → Bool} {directives : List Directive} {selection : String}
    {c : Condition} (h : ofDirectives directives selection = .ok c) :
    c.eval v = included v directives := by
  rw [ofDirectives] at h
  obtain ⟨conditions, hstated, h⟩ := Error.bind_eq_ok.mp h
  cases h
  rw [eval_simplify, eval_allOf, all_eval_stated hstated]
  simp

/-- The condition that directives state does not depend on how the selection is called in errors. -/
theorem ofDirectives_congr {directives : List Directive} {selection selection' : String}
    {c : Condition} (h : ofDirectives directives selection = .ok c) :
    ofDirectives directives selection' = .ok c := by
  have hstated : ∀ (directives : List Directive) (found conditions : List Condition),
      stated selection directives found = .ok conditions →
        stated selection' directives found = .ok conditions := by
    intro directives
    induction directives with
    | nil => exact fun _ _ h ↦ h
    | cons d rest ih =>
      intro found conditions h
      rw [stated] at h ⊢
      split
      · rename_i hnone
        rw [hnone] at h
        exact ih _ _ h
      · rename_i inverted hsome
        rw [hsome] at h
        obtain ⟨c, hc, h⟩ := Error.bind_eq_ok.mp h
        rw [hc]
        change (if c ∈ found then _ else _) = _
        split at h
        · cases h
        · rename_i hnew
          rw [if_neg hnew]
          exact ih _ _ h
  rw [ofDirectives] at h
  obtain ⟨conditions, hconditions, h⟩ := Error.bind_eq_ok.mp h
  rw [ofDirectives, hstated _ _ _ hconditions]
  exact h

/-! ## Clauses -/

/-- A constant, a literal, or a conjunction of literals in which none is the inversion of
another. -/
inductive Clause : Condition → Prop
  | always : Clause .always
  | never : Clause .never
  | literal (name : Name) (inverted : Bool) : Clause (.literal name inverted)
  | junction {operands : List Condition}
      (literals : ∀ c ∈ operands, ∃ name inverted, c = .literal name inverted)
      (consistent : Junction.hasComplements operands = false) : Clause (.junction .all operands)

/-- **A clause that is not `never` can be met.** The values are chosen so that a variable is true
when the clause asks for it. -/
theorem Clause.exists_eval {c : Condition} (h : c.Clause) (hc : c ≠ .never) :
    ∃ v, c.eval v = true := by
  cases h with
  | always => exact ⟨fun _ ↦ true, rfl⟩
  | never => exact absurd rfl hc
  | literal name inverted => exact ⟨fun _ ↦ !inverted, by cases inverted <;> rfl⟩
  | @junction operands literals consistent =>
    refine ⟨fun name ↦ decide (.literal name false ∈ operands), ?_⟩
    rw [eval, evalAll_eq_all, List.all_eq_true]
    intro c hmem
    obtain ⟨name, inverted, rfl⟩ := literals c hmem
    cases inverted with
    | false => simp [eval, hmem]
    | true =>
      have hnot : Condition.literal name false ∉ operands := by
        intro hfalse
        have hsome : Junction.hasComplements operands = true :=
          List.any_eq_true.mpr ⟨_, hmem, by simpa using hfalse⟩
        rw [consistent] at hsome
        cases hsome
      simp [eval, hnot]

theorem Clause.spliced {c : Condition} (h : c.Clause) (hc : c ≠ .never) :
    ∀ x ∈ Junction.all.spliced c, ∃ name inverted, x = .literal name inverted := by
  intro x hx
  cases h with
  | always => simp [Junction.spliced, Junction.identity] at hx
  | never => exact absurd rfl hc
  | literal name inverted =>
    simp only [Junction.spliced, Junction.identity] at hx
    exact ⟨name, inverted, by simpa using hx⟩
  | junction literals consistent =>
    rw [Junction.spliced, if_pos rfl] at hx
    exact literals x hx

private theorem unabsorbed_literals {l : List Condition}
    (h : ∀ c ∈ l, ∃ name inverted, c = .literal name inverted) : Junction.all.unabsorbed l = l := by
  rw [Junction.unabsorbed, List.filter_eq_self]
  intro c hc
  obtain ⟨name, inverted, rfl⟩ := h c hc
  simp [Junction.absorbs]

/-- The conjunction of clauses is a clause. -/
theorem clause_reduce {operands : List Condition} (h : ∀ c ∈ operands, Clause c) :
    Clause (Junction.all.reduce operands) := by
  rw [Junction.reduce]
  split
  · exact .never
  · rename_i hann
    simp only
    split
    · exact .never
    · rename_i hcompl
      have hlit : ∀ c ∈ Ascending.ofList (operands.flatMap Junction.all.spliced),
          ∃ name inverted, c = .literal name inverted := by
        intro x hx
        obtain ⟨c, hc, hx⟩ := List.mem_flatMap.mp (Ascending.mem_ofList.mp hx)
        have hc' : c ≠ .never := by
          rintro rfl
          exact hann hc
        exact (h c hc).spliced hc' x hx
      rw [unabsorbed_literals hlit]
      unfold Junction.join
      split
      · exact .always
      · rename_i c heq
        obtain ⟨name, inverted, rfl⟩ := hlit c (heq ▸ List.mem_singleton_self c)
        exact .literal name inverted
      · exact .junction hlit (Bool.eq_false_iff.mpr hcompl)

theorem Clause.simplify {c : Condition} (h : c.Clause) : c.simplify.Clause := by
  cases h with
  | always => exact .always
  | never => exact .never
  | literal name inverted => exact .literal name inverted
  | junction literals consistent =>
    rw [Condition.simplify, simplifyEach_eq_map]
    refine clause_reduce fun c hc ↦ ?_
    obtain ⟨operand, hmem, rfl⟩ := List.mem_map.mp hc
    obtain ⟨name, inverted, rfl⟩ := literals operand hmem
    exact .literal name inverted

theorem clause_simplify_allOf {l : List Condition} (h : ∀ c ∈ l, Clause c) :
    (allOf l).simplify.Clause := by
  rw [allOf, Condition.simplify, simplifyEach_eq_map]
  refine clause_reduce fun c hc ↦ ?_
  obtain ⟨operand, hmem, rfl⟩ := List.mem_map.mp hc
  exact (h operand (Ascending.mem_ofList.mp hmem)).simplify

theorem Clause.and {a b : Condition} (ha : a.Clause) (hb : b.Clause) : (a.and b).Clause := by
  refine clause_simplify_allOf fun c hc ↦ ?_
  rcases List.mem_cons.mp hc with rfl | hc
  · exact ha
  · rw [List.mem_singleton.mp hc]
    exact hb

theorem clause_ofDirective {d : Directive} {inverted : Bool} {c : Condition}
    (h : ofDirective d inverted = .ok c) : c.Clause := by
  unfold ofDirective at h
  split at h
  · cases h
  · cases h
    split
    · exact .always
    · exact .never
  · cases h
    exact .literal _ _
  · cases h

theorem clause_stated {selection : String} {directives : List Directive}
    {found conditions : List Condition} (hf : ∀ c ∈ found, Clause c)
    (h : stated selection directives found = .ok conditions) : ∀ c ∈ conditions, Clause c := by
  induction directives generalizing found with
  | nil =>
    cases h
    exact hf
  | cons d rest ih =>
    unfold stated at h
    split at h
    · exact ih hf h
    · obtain ⟨c, hc, h⟩ := Error.bind_eq_ok.mp h
      split at h
      · cases h
      · refine ih (fun x hx ↦ ?_) h
        rcases List.mem_append.mp hx with hx | hx
        · exact hf x hx
        · rw [List.mem_singleton.mp hx]
          exact clause_ofDirective hc

theorem clause_ofDirectives {directives : List Directive} {selection : String} {c : Condition}
    (h : ofDirectives directives selection = .ok c) : c.Clause := by
  rw [ofDirectives] at h
  obtain ⟨conditions, hstated, h⟩ := Error.bind_eq_ok.mp h
  cases h
  exact clause_simplify_allOf (clause_stated (fun c hc ↦ absurd hc List.not_mem_nil) hstated)

end Condition
end ResponseModels
