import ResponseModels.Collect.Survey
import ResponseModels.Proofs.Execution

/-!
# Scopes and the gates that lead to them

Beneath a field, a survey carries along what it knows of the place where it is: a `Scope`. Going
through a gate (`Scope.Passes`) joins the condition of the gate to that of the scope, and adds the
type condition of the gate to the type set if some object type of the field does not satisfy it. A
gate that can never be open is not gone through (`Scope.Blocked`).

So the scope at the end of a way is a summary of the gates on it, and for `Scope.Enters`, going
through gates one after the other, this file says of what:

* the condition holds when the directives of all gates let execution pass (`Enters.eval`), and there
  are values of the variables for which it does (`Enters.sound`, through clauses);
* an object type of the field satisfies the type set when every gate applies to it, and, more
  generally, the type set has only members with some property exactly when the type conditions of
  all gates have it, provided that conditions which cover the field have it anyway
  (`Enters.forall_typeSet_iff`).
-/

set_option autoImplicit false

namespace ResponseModels

/-- All object types of a field satisfy a type condition. -/
def Schema.Covers (schema : Schema) (fieldTypes : NameSet) (c : Name) : Prop :=
  ∀ t ∈ fieldTypes, schema.satisfies t c = true

theorem Schema.covers_iff {schema : Schema} {fieldTypes types : NameSet} {c : Name}
    (h : schema.possibleTypes c = .ok types) : schema.Covers fieldTypes c ↔ fieldTypes ⊆ types :=
  forall₂_congr fun _ _ ↦ satisfies_iff h

theorem Schema.covers_iff_forall {schema : Schema} {rawType : Name} {fieldTypes : NameSet}
    {c : Name} (h : schema.possibleTypes rawType = .ok fieldTypes) :
    schema.Covers fieldTypes c ↔
      ∀ t, schema.satisfies t rawType = true → schema.satisfies t c = true :=
  forall_congr' fun _ ↦ imp_congr_left (satisfies_iff h).symm

/-! ## One gate -/

namespace Scope

variable {schema : Schema} {fieldTypes : NameSet}

/-- What entering a fragment gives, if it can be included. -/
theorem enter_eq_some {scope inner : Scope} {c : Name} {condition : Condition} {narrows : Bool}
    (h : scope.enter schema fieldTypes c condition = .ok (some (inner, narrows))) :
    (narrows = true ↔ ¬ schema.Covers fieldTypes c) ∧
      inner.typeSet = (if narrows then scope.typeSet.insert c else scope.typeSet) ∧
      inner.parentType = c ∧ inner.condition = scope.condition.and condition ∧
      inner.condition ≠ .never := by
  rw [enter] at h
  obtain ⟨types, htypes, h⟩ := Error.bind_eq_ok.mp h
  simp only at h
  split at h
  · cases h
  · rename_i hlive
    cases h
    refine ⟨?_, rfl, rfl, rfl, fun hnever ↦ hlive (Condition.isNever_eq_true.mpr hnever)⟩
    rw [Schema.covers_iff htypes]
    simp

/-- A fragment is not entered if its condition and that of the scope exclude each other. -/
theorem enter_eq_none {scope : Scope} {c : Name} {condition : Condition}
    (h : scope.enter schema fieldTypes c condition = .ok none) :
    scope.condition.and condition = .never := by
  rw [enter] at h
  obtain ⟨types, -, h⟩ := Error.bind_eq_ok.mp h
  simp only at h
  split at h
  · rename_i hnever
    exact Condition.isNever_eq_true.mp hnever
  · cases h

/-- Going through a gate leads from one scope into another. -/
def Passes (schema : Schema) (fieldTypes : NameSet) (scope : Scope) (g : Gate) (inner : Scope)
    (narrows : Bool) : Prop :=
  ∃ selection condition, Condition.ofDirectives g.directives selection = .ok condition ∧
    scope.enter schema fieldTypes (g.typeCondition.getD scope.parentType) condition =
      .ok (some (inner, narrows))

/-- A gate is never open where it stands. -/
def Blocked (schema : Schema) (fieldTypes : NameSet) (scope : Scope) (g : Gate) : Prop :=
  ∃ selection condition, Condition.ofDirectives g.directives selection = .ok condition ∧
    scope.enter schema fieldTypes (g.typeCondition.getD scope.parentType) condition = .ok none

/-- What is true of every scope of a survey: its condition is a clause that can be met, and its
innermost type condition is in the type set unless it covers the field. -/
structure Sound (schema : Schema) (fieldTypes : NameSet) (scope : Scope) : Prop where
  /-- The condition is a clause. -/
  clause : scope.condition.Clause
  /-- It can be met. -/
  live : scope.condition ≠ .never
  /-- The innermost type condition is in the type set, or it covers the field. -/
  parent : scope.parentType ∈ scope.typeSet ∨ schema.Covers fieldTypes scope.parentType

theorem sound_ofField (rawType : Name) : (ofField rawType).Sound schema fieldTypes where
  clause := .always
  live := by rintro ⟨⟩
  parent := .inl (NameSet.mem_singleton.mpr rfl)

/-- In a scope of a survey there are values of the variables under which it is reached. -/
theorem Sound.exists_eval {scope : Scope} (h : scope.Sound schema fieldTypes) :
    ∃ v, scope.condition.eval v = true :=
  h.clause.exists_eval h.live

theorem Blocked.not_included {scope : Scope} {g : Gate} (h : scope.Blocked schema fieldTypes g)
    {v : Name → Bool} (hv : scope.condition.eval v = true) : included v g.directives = false := by
  obtain ⟨selection, condition, hc, h⟩ := h
  have heval := congrArg (Condition.eval v) (enter_eq_none h)
  rw [Condition.eval_and, hv, Condition.eval_ofDirectives hc] at heval
  simpa [Condition.eval] using heval

theorem Blocked.not_passes {scope inner : Scope} {g : Gate} {narrows : Bool}
    (h : scope.Blocked schema fieldTypes g) : ¬ scope.Passes schema fieldTypes g inner narrows := by
  rintro ⟨selection', condition', hc', h'⟩
  obtain ⟨selection, condition, hc, h⟩ := h
  cases (Condition.ofDirectives_congr hc).symm.trans hc'
  cases h.symm.trans h'

namespace Passes

variable {scope inner : Scope} {g : Gate} {narrows : Bool}

theorem parentType (h : scope.Passes schema fieldTypes g inner narrows) :
    inner.parentType = g.typeCondition.getD scope.parentType := by
  obtain ⟨_, _, _, h⟩ := h
  exact (enter_eq_some h).2.2.1

theorem mk_eq {c : Name} (h : scope.Passes schema fieldTypes g inner narrows)
    (hc : g.typeCondition = some c) : (⟨inner.typeSet, c, inner.condition⟩ : Scope) = inner := by
  have hparent : inner.parentType = c := by rw [h.parentType, hc, Option.getD_some]
  rw [← hparent]

theorem narrows_iff (h : scope.Passes schema fieldTypes g inner narrows) :
    narrows = true ↔ ¬ schema.Covers fieldTypes inner.parentType := by
  rw [h.parentType]
  obtain ⟨_, _, _, h⟩ := h
  exact (enter_eq_some h).1

theorem mem_typeSet_iff (h : scope.Passes schema fieldTypes g inner narrows) {c : Name} :
    c ∈ inner.typeSet ↔ c ∈ scope.typeSet ∨ narrows = true ∧ c = inner.parentType := by
  rw [h.parentType]
  obtain ⟨_, _, _, h⟩ := h
  rw [(enter_eq_some h).2.1]
  cases narrows with
  | true => simp [or_comm]
  | false => simp

theorem eval (h : scope.Passes schema fieldTypes g inner narrows) (v : Name → Bool) :
    inner.condition.eval v = (scope.condition.eval v && included v g.directives) := by
  obtain ⟨selection, condition, hc, h⟩ := h
  rw [(enter_eq_some h).2.2.2.1, Condition.eval_and, Condition.eval_ofDirectives hc]

theorem sound (h : scope.Passes schema fieldTypes g inner narrows)
    (hs : scope.Sound schema fieldTypes) : inner.Sound schema fieldTypes where
  clause := by
    obtain ⟨selection, condition, hc, h⟩ := h
    rw [(enter_eq_some h).2.2.2.1]
    exact hs.clause.and (Condition.clause_ofDirectives hc)
  live := by
    obtain ⟨selection, condition, hc, h⟩ := h
    exact (enter_eq_some h).2.2.2.2
  parent := by
    cases hn : narrows with
    | true => exact .inl (h.mem_typeSet_iff.mpr (.inr ⟨hn, rfl⟩))
    | false =>
      refine .inr (Classical.byContradiction fun hcovers ↦ ?_)
      rw [h.narrows_iff.mpr hcovers] at hn
      cases hn

/-- What a type set has to have, when conditions that cover the field have it anyway, is what the
type condition of the gate has to have. -/
theorem forall_typeSet_iff (h : scope.Passes schema fieldTypes g inner narrows)
    (hs : scope.Sound schema fieldTypes) {P : Name → Prop}
    (hP : ∀ c, schema.Covers fieldTypes c → P c) :
    (∀ c ∈ inner.typeSet, P c) ↔
      (∀ c ∈ scope.typeSet, P c) ∧ ∀ c, g.typeCondition = some c → P c := by
  constructor
  · intro hall
    refine ⟨fun c hc ↦ hall c (h.mem_typeSet_iff.mpr (.inl hc)), fun c hc ↦ ?_⟩
    have hparent : inner.parentType = c := congrArg Scope.parentType (h.mk_eq hc).symm
    rcases (h.sound hs).parent with hmem | hcovers
    · exact hparent ▸ hall _ hmem
    · exact hparent ▸ hP _ hcovers
  · rintro ⟨hscope, hgate⟩ c hc
    rcases h.mem_typeSet_iff.mp hc with hc | ⟨-, rfl⟩
    · exact hscope c hc
    · rw [h.parentType]
      cases htc : g.typeCondition with
      | some c => exact hgate c htc
      | none =>
        -- Without a type condition of its own the gate repeats the one around it.
        rcases hs.parent with hmem | hcovers
        · exact hscope _ hmem
        · exact hP _ hcovers

/-- The scope behind a gate is determined by the gate. -/
theorem unique {inner' : Scope} {narrows' : Bool}
    (h : scope.Passes schema fieldTypes g inner narrows)
    (h' : scope.Passes schema fieldTypes g inner' narrows') :
    inner = inner' ∧ narrows = narrows' := by
  obtain ⟨selection, condition, hc, h⟩ := h
  obtain ⟨selection', condition', hc', h'⟩ := h'
  cases (Condition.ofDirectives_congr hc).symm.trans hc'
  cases h.symm.trans h'
  exact ⟨rfl, rfl⟩

end Passes

/-! ## Several gates -/

/-- Going through gates one after the other leads from one scope into another. -/
inductive Enters (schema : Schema) (fieldTypes : NameSet) : Scope → List Gate → Scope → Prop
  | nil (scope : Scope) : Enters schema fieldTypes scope [] scope
  | cons {scope inner final : Scope} {g : Gate} {gates : List Gate} {narrows : Bool}
      (pass : scope.Passes schema fieldTypes g inner narrows)
      (rest : Enters schema fieldTypes inner gates final) :
      Enters schema fieldTypes scope (g :: gates) final

namespace Enters

variable {scope final : Scope} {gates : List Gate}

theorem sound (h : Enters schema fieldTypes scope gates final)
    (hs : scope.Sound schema fieldTypes) :
    final.Sound schema fieldTypes := by
  induction h with
  | nil scope => exact hs
  | cons pass rest ih => exact ih (pass.sound hs)

theorem unique {final' : Scope}
    (h : scope.Enters schema fieldTypes gates final)
    (h' : scope.Enters schema fieldTypes gates final') :
    final = final' := by
  induction h with
  | nil scope =>
    cases h'
    rfl
  | cons pass rest ih =>
    cases h' with
    | cons pass' rest' =>
      obtain ⟨rfl, rfl⟩ := pass.unique pass'
      exact ih rest'

theorem snoc {inner : Scope} {g : Gate} {narrows : Bool}
    (h : Enters schema fieldTypes scope gates inner)
    (pass : inner.Passes schema fieldTypes g final narrows) :
    Enters schema fieldTypes scope (gates ++ [g]) final := by
  induction h with
  | nil scope => exact .cons pass (.nil final)
  | cons first rest ih => exact .cons first (ih pass)

/-- The condition at the end of a way holds when all gates on it are open. -/
theorem eval (h : Enters schema fieldTypes scope gates final) (v : Name → Bool) :
    final.condition.eval v =
      (scope.condition.eval v && gates.all fun g ↦ included v g.directives) := by
  induction h with
  | nil scope => simp
  | cons pass rest ih => rw [ih, pass.eval, List.all_cons, Bool.and_assoc]

/-- **The type set at the end of a way sums up the type conditions on it.** -/
theorem forall_typeSet_iff (h : Enters schema fieldTypes scope gates final)
    (hs : scope.Sound schema fieldTypes) {P : Name → Prop}
    (hP : ∀ c, schema.Covers fieldTypes c → P c) :
    (∀ c ∈ final.typeSet, P c) ↔
      (∀ c ∈ scope.typeSet, P c) ∧ ∀ g ∈ gates, ∀ c, g.typeCondition = some c → P c := by
  induction h with
  | nil scope => simp
  | cons pass rest ih =>
    rw [ih (pass.sound hs), pass.forall_typeSet_iff hs hP, List.forall_mem_cons, and_assoc]

theorem parentType_eq (h : Enters schema fieldTypes scope gates final) :
    final.parentType = Gate.innermost scope.parentType gates := by
  induction h with
  | nil scope => rfl
  | cons pass rest ih => rw [ih, pass.parentType, Gate.innermost, Gate.innermost, List.foldl_cons]

/-- The innermost type condition at the end of a way is that of a gate, unless no gate has one. -/
theorem parentType_eq_or (h : Enters schema fieldTypes scope gates final) :
    final.parentType = scope.parentType ∨
      ∃ before g after, gates = before ++ g :: after ∧ g.typeCondition = some final.parentType := by
  induction h with
  | nil scope => exact .inl rfl
  | @cons scope inner final g gates narrows pass rest ih =>
    rcases ih with hparent | ⟨before, g', after, rfl, hg'⟩
    · rw [hparent, pass.parentType]
      cases htc : g.typeCondition with
      | none => exact .inl rfl
      | some c => exact .inr ⟨[], g, gates, rfl, htc⟩
    · exact .inr ⟨g :: before, g', after, rfl, hg'⟩

end Enters
end Scope
end ResponseModels
