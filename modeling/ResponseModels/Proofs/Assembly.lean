import ResponseModels.Proofs.Closure

/-!
# How a representation is assembled

A build hands the types that are in use along from one definition to the next. The order in which
this is done makes no difference to what is found in the end: going on with further names is the
same as starting with all of them (`closure_append`). So a build comes apart (`build_eq_ok_iff`).
Its definitions are built one by one from the library of fragments, and the types are collected
once, from all names that the definitions mention (`Representation.typeNames`).

What is kept of the types depends only on which names are mentioned
(`Schema.exists_used_of_mem_iff`).
-/

set_option autoImplicit false

namespace ResponseModels

/-! ## The types in use -/

/-- Going through more names is going on from where the first ones lead to. -/
theorem closure_append {table : List (Name × List Name)} {missing : Name → Error}
    (first more seen : List Name) :
    closure table missing (first ++ more) seen = closure table missing first seen >>=
      closure table missing more := by
  induction first, seen using closure.induct table with
  | case1 seen =>
    rw [List.nil_append, closure_nil]
    rfl
  | case2 seen m rest hm ih => rw [List.cons_append, closure_of_mem hm, closure_of_mem hm, ih]
  | case3 seen m rest hm hnone =>
    rw [List.cons_append, closure_of_none hm hnone, closure_of_none hm hnone]
    rfl
  | case4 seen m rest hm next hnext ih =>
    rw [List.cons_append, closure_of_some hm hnext, closure_of_some hm hnext,
      ← List.append_assoc, ih]

/-- The names of the types that an operation mentions: those in its tree, then those of its
variables. -/
def OperationModels.typeNames (o : OperationModels) : List Name :=
  o.field.typeNames ++ o.inputs.map fun v ↦ v.type.base.name

/-- The names of the types that the definitions of a document mention. -/
def Representation.typeNames (ir : Representation) : List Name :=
  ir.fragments.flatMap (fun r ↦ r.field.typeNames) ++
    ir.operations.flatMap OperationModels.typeNames

namespace Schema

variable {schema : Schema} {names names' used used' : List Name}

theorem addUsedTypes_append (schema : Schema) (first more used : List Name) :
    schema.addUsedTypes (first ++ more) used = schema.addUsedTypes first used >>=
      schema.addUsedTypes more :=
  closure_append first more used

/-- **The types that are collected depend on which names are mentioned**, not on their order. -/
theorem exists_used_of_mem_iff (hnames : ∀ n, n ∈ names ↔ n ∈ names')
    (h : schema.addUsedTypes names [] = .ok used) :
    ∃ used', schema.addUsedTypes names' [] = .ok used' ∧ ∀ n, n ∈ used ↔ n ∈ used' := by
  have hnil : ∀ a ∈ ([] : List Name), ∀ b, Refers schema.inputTable a b → b ∈ ([] : List Name) :=
    fun a ha ↦ absurd ha List.not_mem_nil
  have hmem : ∀ n, n ∈ used ↔
      ∃ p ∈ names', Relation.ReflTransGen (Refers schema.inputTable) p n := by
    intro n
    rw [mem_closure_iff h hnil, or_iff_right List.not_mem_nil]
    simp only [hnames]
  have hfound := isSome_lookup_of_mem_closure h fun n hn ↦ absurd hn List.not_mem_nil
  have hnever : FailsOnly (fun _ ↦ False) (schema.addUsedTypes names' []) :=
    failsOnly_closure_of_reach fun p hp n hreach ↦ hfound n ((hmem n).mpr ⟨p, hp, hreach⟩)
  obtain ⟨used', hused'⟩ := hnever.exists_ok
  refine ⟨used', hused', fun n ↦ ?_⟩
  rw [hmem n, mem_closure_iff hused' hnil, or_iff_right List.not_mem_nil]

section

variable (h : ∀ n, n ∈ used ↔ n ∈ used')
include h

theorem usedEnums_congr : schema.usedEnums used = schema.usedEnums used' := by
  simp only [usedEnums, h]

theorem usedScalars_congr : schema.usedScalars used = schema.usedScalars used' := by
  simp only [usedScalars, h]

theorem usedInputObjects_congr : schema.usedInputObjects used = schema.usedInputObjects used' := by
  simp only [usedInputObjects, h]

end
end Schema

/-! ## The definitions one by one -/

section

variable {schema : Schema} {config : Config} {d : Document} {lib : FragmentLibrary}
  {ir : Representation}

theorem buildFragments_eq_ok_iff {fragments : List Fragment} {results : List FragmentModels}
    {used used' : List Name} :
    buildFragments schema config lib fragments used = .ok (results, used') ↔
      List.Forall₂ (fun f r ↦ buildFragment config lib f = .ok r) fragments results ∧
      schema.addUsedTypes (results.flatMap fun r ↦ r.field.typeNames) used = .ok used' := by
  induction fragments generalizing results used with
  | nil =>
    rw [buildFragments]
    constructor
    · intro h
      cases h
      exact ⟨.nil, closure_nil⟩
    · rintro ⟨hnil, hused⟩
      cases hnil
      rw [List.flatMap_nil, Schema.addUsedTypes, closure_nil] at hused
      cases hused
      rfl
  | cons f rest ih =>
    rw [buildFragments]
    constructor
    · intro h
      obtain ⟨built, hbuilt, h⟩ := Error.bind_eq_ok.mp h
      obtain ⟨used₁, hused₁, h⟩ := Error.bind_eq_ok.mp h
      obtain ⟨⟨others, used₂⟩, hothers, h⟩ := Error.bind_eq_ok.mp h
      cases h
      obtain ⟨hall, hused⟩ := ih.mp hothers
      refine ⟨.cons (Error.wrap_eq_ok.mp hbuilt) hall, ?_⟩
      rw [List.flatMap_cons, Schema.addUsedTypes_append]
      exact Error.bind_eq_ok.mpr ⟨used₁, hused₁, hused⟩
    · rintro ⟨hall, hused⟩
      cases hall with
      | cons hbuilt hall =>
        rw [List.flatMap_cons, Schema.addUsedTypes_append] at hused
        obtain ⟨used₁, hused₁, hused⟩ := Error.bind_eq_ok.mp hused
        exact Error.bind_eq_ok.mpr ⟨_, Error.wrap_eq_ok.mpr hbuilt,
          Error.bind_eq_ok.mpr ⟨used₁, hused₁, Error.bind_eq_ok.mpr ⟨_, ih.mpr ⟨hall, hused⟩, rfl⟩⟩⟩

theorem buildOperations_eq_ok_iff {named : List (Name × Operation)}
    {operations : List OperationModels} {used used' : List Name} :
    buildOperations schema d config lib named used = .ok (operations, used') ↔
      List.Forall₂ (fun p o ↦ buildOperation schema d config lib p.1 p.2 = .ok o) named operations ∧
      schema.addUsedTypes (operations.flatMap OperationModels.typeNames) used = .ok used' := by
  induction named generalizing operations used with
  | nil =>
    rw [buildOperations]
    constructor
    · intro h
      cases h
      exact ⟨.nil, closure_nil⟩
    · rintro ⟨hnil, hused⟩
      cases hnil
      rw [List.flatMap_nil, Schema.addUsedTypes, closure_nil] at hused
      cases hused
      rfl
  | cons p rest ih =>
    rw [buildOperations]
    constructor
    · intro h
      obtain ⟨built, hbuilt, h⟩ := Error.bind_eq_ok.mp h
      obtain ⟨used₁, hused₁, h⟩ := Error.bind_eq_ok.mp h
      obtain ⟨used₂, hused₂, h⟩ := Error.bind_eq_ok.mp h
      obtain ⟨⟨others, used₃⟩, hothers, h⟩ := Error.bind_eq_ok.mp h
      cases h
      obtain ⟨hall, hused⟩ := ih.mp hothers
      refine ⟨.cons (Error.wrap_eq_ok.mp hbuilt) hall, ?_⟩
      rw [List.flatMap_cons, Schema.addUsedTypes_append, OperationModels.typeNames,
        Schema.addUsedTypes_append]
      exact Error.bind_eq_ok.mpr ⟨used₂, Error.bind_eq_ok.mpr ⟨used₁, hused₁, hused₂⟩, hused⟩
    · rintro ⟨hall, hused⟩
      cases hall with
      | cons hbuilt hall =>
        rw [List.flatMap_cons, Schema.addUsedTypes_append, OperationModels.typeNames,
          Schema.addUsedTypes_append] at hused
        obtain ⟨used₂, hused₂, hused⟩ := Error.bind_eq_ok.mp hused
        obtain ⟨used₁, hused₁, hused₂⟩ := Error.bind_eq_ok.mp hused₂
        exact Error.bind_eq_ok.mpr ⟨_, Error.wrap_eq_ok.mpr hbuilt,
          Error.bind_eq_ok.mpr ⟨used₁, hused₁,
          Error.bind_eq_ok.mpr ⟨used₂, hused₂,
            Error.bind_eq_ok.mpr ⟨_, ih.mpr ⟨hall, hused⟩, rfl⟩⟩⟩⟩

/-- A representation is put together from a library of fragments and the types in use. -/
structure Assembled (schema : Schema) (config : Config) (d : Document) (lib : FragmentLibrary)
    (used : List Name) (ir : Representation) : Prop where
  /-- All operations have names. -/
  named : ∀ o ∈ d.operations, o.name.isSome
  /-- The library is that of the document. -/
  library : FragmentLibrary.ofDocument schema d config = .ok lib
  /-- The fragments are built from it one by one. -/
  fragments : List.Forall₂ (fun f r ↦ buildFragment config lib f = .ok r) d.fragments ir.fragments
  /-- So are the operations. -/
  operations :
    List.Forall₂ (fun p o ↦ buildOperation schema d config lib p.1 p.2 = .ok o)
      d.namedOperations ir.operations
  /-- The types in use are those that all of this reaches. -/
  types : schema.addUsedTypes ir.typeNames [] = .ok used
  /-- The input objects are taken from the types in use. -/
  inputObjects : schema.usedInputObjects used = .ok ir.inputObjects
  /-- So are the enums. -/
  enums : ir.enums = schema.usedEnums used
  /-- So are the scalars. -/
  scalars : ir.scalars = schema.usedScalars used

/-- **What a build amounts to.** -/
theorem build_eq_ok_iff :
    build schema config d = .ok ir ↔ ∃ lib used, Assembled schema config d lib used ir := by
  have hany : d.operations.any (fun o ↦ o.name.isNone) = false ↔
      ∀ o ∈ d.operations, o.name.isSome := by
    simp [Option.isSome_iff_ne_none]
  rw [build]
  constructor
  · intro h
    split at h
    · cases h
    rename_i hnamed
    obtain ⟨lib, hlib, h⟩ := Error.bind_eq_ok.mp h
    obtain ⟨⟨fragments, used₁⟩, hfragments, h⟩ := Error.bind_eq_ok.mp h
    obtain ⟨⟨operations, used₂⟩, hoperations, h⟩ := Error.bind_eq_ok.mp h
    obtain ⟨inputObjects, hinputs, h⟩ := Error.bind_eq_ok.mp h
    cases h
    obtain ⟨hfragments, hused₁⟩ := buildFragments_eq_ok_iff.mp hfragments
    obtain ⟨hoperations, hused₂⟩ := buildOperations_eq_ok_iff.mp hoperations
    refine ⟨lib, used₂, hany.mp (by simpa using hnamed), hlib, hfragments, hoperations, ?_,
      hinputs, rfl, rfl⟩
    rw [Representation.typeNames, Schema.addUsedTypes_append]
    exact Error.bind_eq_ok.mpr ⟨used₁, hused₁, hused₂⟩
  · rintro ⟨lib, used, hnamed, hlib, hfragments, hoperations, htypes, hinputs, henums, hscalars⟩
    rw [if_neg (by rw [hany.mpr hnamed]; exact Bool.false_ne_true)]
    rw [Representation.typeNames, Schema.addUsedTypes_append] at htypes
    obtain ⟨used₁, hused₁, hused⟩ := Error.bind_eq_ok.mp htypes
    refine Error.bind_eq_ok.mpr
      ⟨lib, hlib, Error.bind_eq_ok.mpr ⟨_, buildFragments_eq_ok_iff.mpr ⟨hfragments, hused₁⟩, ?_⟩⟩
    refine Error.bind_eq_ok.mpr ⟨_, buildOperations_eq_ok_iff.mpr ⟨hoperations, hused⟩, ?_⟩
    refine Error.bind_eq_ok.mpr ⟨_, hinputs, ?_⟩
    rw [← henums, ← hscalars]
    rfl

end
end ResponseModels
