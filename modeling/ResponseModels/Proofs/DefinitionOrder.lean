import Mathlib.Data.List.Perm.Basic
import ResponseModels.Proofs.Assembly
import ResponseModels.Proofs.Collect.Mirror
import ResponseModels.Proofs.Rebuild
import ResponseModels.Proofs.Sample

/-!
# The order of definitions

The operations and fragments of a document can be listed in any order. Where their names differ, a
document finds the same fragments by name in any order, and nothing else of the list is seen while
selections are expanded (`expandRoot_of_fragment?`). So the fragments have the same fields, the
library is the same up to its order, and every definition is built as before. Only the results are
listed in the new order.

**The order of definitions does not matter** (`build_of_reordered`): a document can be built in any
order of its definitions or in none, each definition is built alike, and the types in use are the
same lists.
-/

set_option autoImplicit false

namespace ResponseModels

/-! ## Expanding selections -/

section

variable {schema : Schema} {d d' : Document} (hd : ∀ name, d.fragment? name = d'.fragment? name)
include hd

theorem Selection.gate?_congr (s : Selection) : s.gate? d = s.gate? d' := by
  cases s with
  | field head selections => rfl
  | inline typeCondition directives selections => rfl
  | spread name directives => rw [gate?, gate?, hd]

/-- A survey of one document goes on alike in another that has the same fragments. -/
theorem Surveys.of_fragment? {fieldTypes : NameSet} {trail : Trail} {scope : Scope}
    {selections : List (Place × Selection)} {expanded expanded' : List Expansion} {found : Findings}
    (h : Surveys schema d fieldTypes trail scope selections expanded found expanded') :
    Surveys schema d' fieldTypes trail scope selections expanded found expanded' := by
  induction h with
  | nil trail scope expanded => exact .nil trail scope expanded
  | field directives _ ih => exact .field directives ih
  | skipped gate fresh blocked _ ih =>
    exact .skipped (Selection.gate?_congr hd _ ▸ gate) fresh blocked ih
  | inline pass _ _ ihWithin ihAfter => exact .inline pass ihWithin ihAfter
  | again found fresh pass before _ ih => exact .again (hd _ ▸ found) fresh pass before ih
  | spread found fresh pass new _ _ ihWithin ihAfter =>
    exact .spread (hd _ ▸ found) fresh pass new ihWithin ihAfter

theorem yields_surveyChildren (fieldTypes : NameSet) (rawType : Name) (children : List Child)
    (expanded : List Expansion) :
    Yields (surveyChildren schema d fieldTypes rawType children expanded)
      (surveyChildren schema d' fieldTypes rawType children expanded) := by
  induction children generalizing expanded with
  | nil => exact .refl _
  | cons c rest ih =>
    rw [surveyChildren, surveyChildren]
    refine .bind (fun found h ↦ ((surveys_of_ok h).of_fragment? hd).ok) fun found ↦ ?_
    exact .bind (ih found.2) fun later ↦ .refl _

/-- **Expanding selections depends on the fragments of the document**, not on their order. -/
theorem expandRoot_of_fragment? {policy : TypenamePolicy} {rawType : Name}
    {selections : List Selection} {path : List Name} :
    Yields (expandRoot schema d policy rawType selections path)
      (expandRoot schema d' policy rawType selections path) := by
  intro f hf
  refine expandRoot_eq_ok_of_agrees (C := Eq) (fun {rawType children children' s} hchildren hs ↦ ?_)
    rfl hf
  subst hchildren
  obtain ⟨fieldTypes, htypes, hs⟩ := Error.bind_eq_ok.mp hs
  obtain ⟨found, hfound, hs⟩ := Error.bind_eq_ok.mp hs
  cases hs
  have hfound' := yields_surveyChildren hd fieldTypes rawType children [] found hfound
  refine ⟨⟨rawType, fieldTypes, found⟩, ?_, rfl, rfl, fun _ ↦ rfl, fun hm ↦ ⟨_, hm, ?_⟩⟩
  · exact Error.bind_eq_ok.mpr ⟨fieldTypes, htypes, Error.bind_eq_ok.mpr ⟨found, hfound', rfl⟩⟩
  · exact List.forall₂_same.mpr fun _ _ ↦ ⟨rfl, rfl, rfl⟩

/-! ## Building definitions -/

theorem Document.operationSource_congr (o : Operation) (names : NameSet) :
    d.operationSource o names = d'.operationSource o names := by
  rw [operationSource, operationSource, funext hd]

theorem yields_buildOperation {config : Config} {lib lib' : FragmentLibrary}
    (hlib : lib'.Matches lib) (name : Name) (o : Operation) :
    Yields (buildOperation schema d config lib name o)
      (buildOperation schema d' config lib' name o) := by
  rw [buildOperation, buildOperation, hlib.interfaceOf_eq]
  refine .bind (.refl _) fun rootType ↦ .bind (expandRoot_of_fragment? hd) fun field ↦
    .bind (.refl _) fun group ↦ ?_
  rw [hlib.usedFragments_eq]
  simp only [Document.operationSource_congr hd]
  exact .refl _

end

theorem buildFragment_congr {config : Config} {lib lib' : FragmentLibrary} (h : lib'.Matches lib)
    (f : Fragment) :
    buildFragment config lib' f = buildFragment config lib f := by
  simp only [buildFragment, h.entry_eq, h.implementation, h.usedFragments_eq]

/-! ## The result -/

/-- The results of steps beside what they were taken on. -/
theorem zip_of_forall₂ {α β : Type} {step : α → Except Error β} {l : List α} {r : List β}
    (h : List.Forall₂ (fun a b ↦ step a = .ok b) l r) :
    l.zip r = l.filterMap fun a ↦ (step a).toOption.map fun b ↦ (a, b) := by
  induction h with
  | nil => rfl
  | cons hab _ ih =>
    rw [List.zip_cons_cons, List.filterMap_cons, hab, ih]
    rfl

/-- The steps of a list can be taken in another order, with the same results. -/
theorem exists_forall₂_of_perm {α β : Type} {step step' : α → Except Error β} {l l' : List α}
    {r : List β} (hperm : l.Perm l') (hstep : ∀ a, Yields (step a) (step' a))
    (h : List.Forall₂ (fun a b ↦ step a = .ok b) l r) :
    ∃ r', List.Forall₂ (fun a b ↦ step' a = .ok b) l' r' ∧ (l.zip r).Perm (l'.zip r') ∧
      r.Perm r' := by
  obtain ⟨r', hr', hperm'⟩ := List.perm_comp_forall₂ hperm.symm h
  refine ⟨r', hr'.imp fun a b hab ↦ hstep a b hab, ?_, hperm'.symm⟩
  rw [zip_of_forall₂ h, zip_of_forall₂ hr']
  exact hperm.filterMap _

/-- A document finds the same fragments in any order, where their names differ. -/
theorem Document.fragment?_of_perm {d d' : Document}
    (hnames : (d.fragments.map Fragment.name).Nodup) (hfragments : d.fragments.Perm d'.fragments)
    (name : Name) : d.fragment? name = d'.fragment? name :=
  find?_of_perm hnames hfragments name

section

variable {schema : Schema} {config : Config} {d d' : Document} {ir ir' : Representation}

/-- Two representations have the same content, the definitions of one document being those of
another in a different order. -/
structure Reordered (d d' : Document) (ir ir' : Representation) : Prop where
  /-- The operations with what is built of them are the same, in another order. -/
  operations : (d.namedOperations.zip ir.operations).Perm (d'.namedOperations.zip ir'.operations)
  /-- So are the fragments with what is built of them. -/
  fragments : (d.fragments.zip ir.fragments).Perm (d'.fragments.zip ir'.fragments)
  /-- The input objects in use are the same, in the same order. -/
  inputObjects : ir.inputObjects = ir'.inputObjects
  /-- So are the enums. -/
  enums : ir.enums = ir'.enums
  /-- So are the scalars. -/
  scalars : ir.scalars = ir'.scalars

theorem exists_build_of_perm (hnames : (d.fragments.map Fragment.name).Nodup)
    (hfragments : d.fragments.Perm d'.fragments) (hoperations : d.operations.Perm d'.operations)
    (h : build schema config d = .ok ir) :
    ∃ ir', build schema config d' = .ok ir' ∧ Reordered d d' ir ir' := by
  have hd := Document.fragment?_of_perm hnames hfragments
  obtain ⟨lib, used, ha⟩ := build_eq_ok_iff.mp h
  have hretains : FragmentLibrary.Retains schema config.typename d d' :=
    fun name fragment field hf hfield ↦
      ⟨fragment, hd name ▸ hf, expandRoot_of_fragment? hd field hfield⟩
  obtain ⟨lib', hlib', hmatches⟩ := FragmentLibrary.exists_ofDocument ha.library hretains
    fun f hf ↦ ⟨f, hfragments.mem_iff.mpr hf, rfl⟩
  have hfragment : ∀ f, Yields (buildFragment config lib f) (buildFragment config lib' f) :=
    fun f r hr ↦ (buildFragment_congr hmatches f).trans hr
  obtain ⟨fragments', hf', hfzip, hfperm⟩ :=
    exists_forall₂_of_perm hfragments hfragment ha.fragments
  obtain ⟨operations', ho', hozip, hoperm⟩ := exists_forall₂_of_perm (hoperations.filterMap _)
    (fun p : Name × Operation ↦ yields_buildOperation hd hmatches p.1 p.2) ha.operations
  -- The same types are mentioned, in another order.
  have htypes : ∀ n, n ∈ ir.typeNames ↔
      n ∈ Representation.typeNames { ir with operations := operations', fragments := fragments' } :=
    fun n ↦ ((hfperm.flatMap_right _).append (hoperm.flatMap_right _)).mem_iff
  obtain ⟨used', hused', hmem⟩ := Schema.exists_used_of_mem_iff htypes ha.types
  refine ⟨{ ir with operations := operations', fragments := fragments' },
    build_eq_ok_iff.mpr ⟨lib', used', ?_⟩, hozip, hfzip, rfl, rfl, rfl⟩
  exact ⟨fun o ho ↦ ha.named o (hoperations.mem_iff.mpr ho), hlib', hf', ho', hused',
    (Schema.usedInputObjects_congr hmem).symm.trans ha.inputObjects,
    ha.enums.trans (Schema.usedEnums_congr hmem), ha.scalars.trans (Schema.usedScalars_congr hmem)⟩

/-- The results of a build are listed in the order of the document. -/
theorem map_name_of_build (h : build schema config d = .ok ir) :
    ir.operations.map OperationModels.name = d.namedOperations.map Prod.fst ∧
      ir.fragments.map FragmentModels.name = d.fragments.map Fragment.name := by
  obtain ⟨lib, _, _, _, -, hfragments, hoperations⟩ := build_eq_ok h
  exact ⟨map_name_buildOperations hoperations, map_name_buildFragments hfragments⟩

end

/-- **The order of definitions does not matter.** Two documents with the same operations and the
same fragments, whose names differ, in different orders, can both be built or none of them can. If
they can, the results list the definitions in the order of their document, all that is built for a
definition is the same, and the types in use are the same lists. -/
theorem build_of_reordered (schema : Schema) (config : Config) (d d' : Document)
    (hnames : (d.fragments.map Fragment.name).Nodup) (hfragments : d.fragments.Perm d'.fragments)
    (hoperations : d.operations.Perm d'.operations) :
    ((∃ ir, build schema config d = .ok ir) ↔ ∃ ir', build schema config d' = .ok ir') ∧
      ∀ ir ir', build schema config d = .ok ir → build schema config d' = .ok ir' →
        Reordered d d' ir ir' ∧
        (ir.operations.map OperationModels.name = d.namedOperations.map Prod.fst ∧
          ir.fragments.map FragmentModels.name = d.fragments.map Fragment.name) ∧
        ir'.operations.map OperationModels.name = d'.namedOperations.map Prod.fst ∧
          ir'.fragments.map FragmentModels.name = d'.fragments.map Fragment.name := by
  have hnames' := (hfragments.map Fragment.name).nodup_iff.mp hnames
  refine ⟨⟨fun ⟨ir, h⟩ ↦ ?_, fun ⟨ir', h'⟩ ↦ ?_⟩, fun ir ir' h h' ↦
    ⟨?_, map_name_of_build h, map_name_of_build h'⟩⟩
  · obtain ⟨ir', h', -⟩ := exists_build_of_perm hnames hfragments hoperations h
    exact ⟨ir', h'⟩
  · obtain ⟨ir, h, -⟩ := exists_build_of_perm hnames' hfragments.symm hoperations.symm h'
    exact ⟨ir, h⟩
  · obtain ⟨ir'', h'', hreordered⟩ := exists_build_of_perm hnames hfragments hoperations h
    cases h'.symm.trans h''
    exact hreordered

open Sample in
/-- Two queries and their fragments, listed forwards and backwards. -/
theorem build_of_reordered_visits :
    (visits.fragments.map Fragment.name).Nodup ∧ visits.fragments.Perm visitsReversed.fragments ∧
      visits.operations.Perm visitsReversed.operations ∧
      ∃ ir ir', build schema {} visits = .ok ir ∧ build schema {} visitsReversed = .ok ir' ∧
      Reordered visits visitsReversed ir ir' ∧
        ir.operations.map OperationModels.name = ["Visit", "Call"] ∧
        ir'.operations.map OperationModels.name = ["Call", "Visit"] := by
  have hnames : (visits.fragments.map Fragment.name).Nodup := by decide
  have hfragments : visits.fragments.Perm visitsReversed.fragments := (List.reverse_perm _).symm
  have hoperations : visits.operations.Perm visitsReversed.operations := (List.reverse_perm _).symm
  obtain ⟨hiff, hall⟩ :=
    build_of_reordered schema {} visits visitsReversed hnames hfragments hoperations
  have hok : (build schema {} visits).toOption.any fun _ ↦ true := by decide +kernel
  obtain ⟨ir, hir, -⟩ := Error.exists_of_any hok
  obtain ⟨ir', hir'⟩ := hiff.mp ⟨ir, hir⟩
  obtain ⟨hreordered, hlisted, hlisted'⟩ := hall ir ir' hir hir'
  exact ⟨hnames, hfragments, hoperations, ir, ir', hir, hir', hreordered,
    hlisted.1.trans (by decide), hlisted'.1.trans (by decide)⟩

end ResponseModels
