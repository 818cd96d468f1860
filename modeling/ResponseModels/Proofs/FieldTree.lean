import ResponseModels.Proofs.Build
import ResponseModels.Proofs.Model.Completion

/-!
# The fields of a representation

The trees of the operations and of the fragments hold all fields that were collected.
`Representation.HasField` says of a field that it is in one of them, at whatever depth. All of these
come from expanding a declaration, a `__typename` that was added apart, so to show something of all
of them it is enough to look at the fields of definitions and at the field sets of a field that was
expanded (`HasField.induction`).
-/

set_option autoImplicit false

namespace ResponseModels

/-- A field is in the tree of another. -/
inductive Field.Contains (root : Field) : Field → Prop
  | here : Contains root root
  | step {f k : Field} {s : FieldSet} (outer : Contains root f) (mem : s ∈ f.fieldSets)
      (inner : k ∈ s.fields) :
      Contains root k

/-- A field is in the tree of an operation or of a fragment. -/
inductive Representation.HasField (ir : Representation) : Field → Prop
  | operation {o : OperationModels} {f : Field} (mem : o ∈ ir.operations)
      (within : o.field.Contains f) : ir.HasField f
  | fragment {r : FragmentModels} {f : Field} (mem : r ∈ ir.fragments)
      (within : r.field.Contains f) : ir.HasField f

/-- What is in the tree of a field beneath another is in the tree of the other. -/
theorem Field.Contains.beneath {f k x : Field} {s : FieldSet} (hs : s ∈ f.fieldSets)
    (hk : k ∈ s.fields) (h : k.Contains x) : f.Contains x := by
  induction h with
  | here => exact .step .here hs hk
  | step _ mem inner ih => exact .step ih mem inner

/-- The field of a definition is not under any condition. -/
theorem condition_of_expandRoot {schema : Schema} {d : Document} {policy : TypenamePolicy}
    {rawType : Name} {selections : List Selection} {path : List Name} {f : Field}
    (h : expandRoot schema d policy rawType selections path = .ok f) : f.condition = .always := by
  rw [expandRoot] at h
  obtain ⟨type, -, h⟩ := Error.bind_eq_ok.mp h
  exact (info_of_expandField h).2

section

variable {schema : Schema} {d : Document} {config : Config} {ir : Representation} {P : Field → Prop}
  (hroot : ∀ {rawType : Name} {selections : List Selection} {path : List Name} {f : Field},
    expandRoot schema d config.typename rawType selections path = .ok f → P f)
  (hstep : ∀ {f k : Field} {s : FieldSet}, f.Expanded schema d config.typename → s ∈ f.fieldSets →
    k ∈ s.fields → P k)
include hroot hstep

theorem Field.Contains.induction {rawType : Name} {selections : List Selection} {path : List Name}
    {root f : Field}
    (hexpand : expandRoot schema d config.typename rawType selections path = .ok root)
    (h : root.Contains f) : P f := by
  have hboth : f.Expanded schema d config.typename ∧ P f := by
    induction h with
    | here => exact ⟨.of_expandRoot hexpand, hroot hexpand⟩
    | step _ mem inner ih => exact ⟨ih.1.of_mem mem inner, hstep ih.1 mem inner⟩
  exact hboth.2

/-- **What holds of the fields of definitions, and of those of a field set whenever the field around
it was expanded, holds of all fields.** -/
theorem Representation.HasField.induction (h : build schema config d = .ok ir) {f : Field}
    (hf : ir.HasField f) : P f := by
  cases hf with
  | operation mem within =>
    obtain ⟨_, _, _, _, _, _, hexpand, _⟩ := exists_operation_of_build h mem
    exact within.induction hroot hstep hexpand
  | fragment mem within =>
    obtain ⟨_, _, hexpand, _⟩ := exists_fragment_of_build h mem
    exact within.induction hroot hstep hexpand

end
end ResponseModels
