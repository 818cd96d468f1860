import Mathlib.Logic.Relation
import ResponseModels.Proofs.Model.Address

/-!
# What models implement

A model implements models of wider shapes of its field, models of the interfaces of fragments, and
models of groups that its own group inherits from. All of these are interfaces, and are for at least
its object types (`Super.covers`).

That there are no cycles needs more than one group. A model implements only what was built before
it: models before it in its group, models of fragments that were built before, and models beneath
those that the model above it implements. So every way along implemented models comes to an end
(`Grounded`). This is shown along the tree of groups that is built for a field (`Field.grounded`),
and for the fragments in the order of the library (`Stacked.grounded`).
-/

set_option autoImplicit false

namespace ResponseModels

/-! ## Statements -/

/-- A model of a representation implements another. -/
def Representation.Implements (ir : Representation) (m n : Model) : Prop :=
  m ∈ ir.models ∧ n ∈ ir.models ∧ n.id ∈ m.implements

/-! ## No cycles -/

/-- A model of a representation from which every way along implemented models comes to an end. -/
def Grounded (ir : Representation) (m : Model) : Prop :=
  m ∈ ir.models ∧ Acc (fun n m ↦ ir.Implements m n) m

section grounded

variable {ir : Representation} (hunique : (ir.models.map Model.id).Nodup)
  {interfaces : Name → Except Error ModelGroup}
  (hinterfaces : ∀ name g, interfaces name = .ok g → ∀ m ∈ g.allModels, Grounded ir m)

include hunique in
/-- A model is grounded if what it implements is. -/
theorem Grounded.intro {m : Model} (hm : m ∈ ir.models) {sups : List Model}
    (himplements : m.implements = sups.map Model.id) (hsups : ∀ n ∈ sups, Grounded ir n) :
    Grounded ir m := by
  refine ⟨hm, .intro m fun n ⟨_, hn, hid⟩ ↦ ?_⟩
  rw [himplements] at hid
  obtain ⟨n', hn', heq⟩ := List.mem_map.mp hid
  obtain ⟨hmem, hacc⟩ := hsups n' hn'
  exact List.inj_on_of_nodup_map hunique hmem hn heq ▸ hacc

include hinterfaces in
/-- What a model implements is grounded with all that is beneath it, if what was there before is. -/
theorem Super.grounded {inherited : List ModelGroup}
    (hinherited : ∀ g ∈ inherited, ∀ m ∈ g.allModels, Grounded ir m) {before : List BuiltModel}
    (hbefore : ∀ c ∈ before, ∀ m ∈ c.model :: c.model.beneath, Grounded ir m) {p : PlannedModel}
    {n : Model} (h : Super interfaces inherited before p n) :
    ∀ m ∈ n :: n.beneath, Grounded ir m := by
  cases h with
  | own mem _ _ _ => exact hbefore _ mem
  | wider mem _ _ => exact hbefore _ mem
  | @matching g _ group mem =>
    have hgroup : ∀ m ∈ g.allModels, Grounded ir m := by
      rcases group with hmem | ⟨name, -, hok⟩
      · exact hinherited g hmem
      · exact hinterfaces name g hok
    have hn := (ModelGroup.of_mem_mostSpecific mem).1
    intro m hm
    refine hgroup m ?_
    rw [g.allModels_eq]
    exact List.mem_flatMap.mpr ⟨n, hn, hm⟩

include hunique hinterfaces

/-- **The tree that is built for a field is grounded**, if the interfaces and inherited groups
are. -/
theorem Field.grounded {f : Field} {site : Site} {inherited : List ModelGroup} {g : ModelGroup}
    (h : f.modelGroup interfaces site inherited = .ok g)
    (hinherited : ∀ h ∈ inherited, ∀ m ∈ h.allModels, Grounded ir m)
    (hmodels : ∀ m ∈ g.allModels, m ∈ ir.models) : ∀ m ∈ g.allModels, Grounded ir m := by
  refine modelGroup_induct (motive := fun _ _ inherited g ↦
    (∀ h ∈ inherited, ∀ m ∈ h.allModels, Grounded ir m) → (∀ m ∈ g.allModels, m ∈ ir.models) →
      ∀ m ∈ g.allModels, Grounded ir m) (fun f site inherited g h ih hinherited hmodels ↦ ?_) h
    hinherited hmodels
  obtain ⟨built, hraises, heq, hplanned, -⟩ := raises_of_modelGroup h
  have hsets : ∀ b ∈ built, b.planned.fieldSet ∈ f.fieldSets := fun b hb ↦
    fieldSet_mem_of_mem_plan (hplanned ▸ List.mem_map_of_mem hb)
  have hmem : ∀ b ∈ built, ∀ m ∈ b.model :: b.model.beneath, m ∈ ir.models := by
    intro b hb m hm
    refine hmodels m ?_
    rw [g.allModels_eq, heq]
    exact List.mem_flatMap.mpr ⟨b.model, List.mem_map_of_mem hb, hm⟩
  suffices hall : ∀ b ∈ built, ∀ m ∈ b.model :: b.model.beneath, Grounded ir m by
    intro m hm
    rw [g.allModels_eq, heq] at hm
    obtain ⟨n, hn, hm⟩ := List.mem_flatMap.mp hm
    obtain ⟨b, hb, rfl⟩ := List.mem_map.mp hn
    exact hall b hb m hm
  clear heq hplanned
  -- One model after the other: what the last one implements is grounded, so it is too, and so are
  -- the groups beneath.
  induction hraises with
  | nil => exact fun b hb ↦ absurd hb List.not_mem_nil
  | @snoc before sups last _ hlast ih' =>
    have hbefore := ih' (fun b hb ↦ hsets b (List.mem_append_left _ hb))
      fun b hb ↦ hmem b (List.mem_append_left _ hb)
    have hsups : ∀ n ∈ sups, ∀ m ∈ n :: n.beneath, Grounded ir m := fun n hn ↦
      (hlast.supers.only n hn).grounded hinterfaces hinherited hbefore
    have hlastMem : last ∈ before ++ [last] :=
      List.mem_append_right _ (List.mem_singleton_self last)
    intro b hb
    rcases List.mem_append.mp hb with hb | hb
    · exact hbefore b hb
    cases List.mem_singleton.mp hb
    refine List.forall_mem_cons.mpr ⟨?_, fun m hm ↦ ?_⟩
    · refine .intro hunique (hmem last hlastMem _ List.mem_cons_self) hlast.implements fun n hn ↦ ?_
      exact hsups n hn n List.mem_cons_self
    · obtain ⟨p, hp, inner, hinner, hm'⟩ := Model.mem_beneath_iff.mp hm
      obtain ⟨k, hk, -, hgroup⟩ := hlast.nested hp hinner
      refine ih _ (hsets last hlastMem) k hk _ _ inner hgroup (fun h hh m hm ↦ ?_)
        (fun m hm ↦ ?_) m hm'
      · obtain ⟨n, hn, q, hq, -, hqgroup⟩ := exists_of_mem_inheritedGroups hh
        exact hsups n hn m
          (List.mem_cons_of_mem _ (Model.mem_beneath_iff.mpr ⟨q, hq, h, hqgroup, hm⟩))
      · refine hmem last hlastMem m (List.mem_cons_of_mem _ ?_)
        exact Model.mem_beneath_iff.mpr ⟨p, hp, inner, hinner, hm⟩

omit hinterfaces in
/-- The interfaces of fragments are grounded, in the order in which they are built. -/
theorem Stacked.grounded {built : List BuiltFragment} (h : Stacked built)
    (hmem : ∀ b ∈ built, ∀ m ∈ b.interface.allModels, m ∈ ir.models) :
    ∀ b ∈ built, ∀ m ∈ b.interface.allModels, Grounded ir m := by
  induction h with
  | nil => exact fun b hb ↦ absurd hb List.not_mem_nil
  | @snoc before last interfaces _ _ offers group ih =>
    have hbefore := ih fun b hb ↦ hmem b (List.mem_append_left _ hb)
    intro b hb
    rcases List.mem_append.mp hb with hb | hb
    · exact hbefore b hb
    cases List.mem_singleton.mp hb
    have hoffered : ∀ name g, interfaces name = .ok g → ∀ m ∈ g.allModels, Grounded ir m := by
      intro name g hok
      obtain ⟨c, hc, -, rfl⟩ := offers name g hok
      exact hbefore c hc
    exact Field.grounded hunique hoffered group (fun _ hh ↦ absurd hh List.not_mem_nil)
      (hmem last (List.mem_append_right _ (List.mem_singleton_self last)))

end grounded

/-! ## The whole representation -/

section build

variable {schema : Schema} {d : Document} {config : Config} {ir : Representation}
  (h : build schema config d = .ok ir) (hd : d.UniqueNames)
include h hd

/-- **Every model is grounded.** -/
theorem grounded_of_build {m : Model} (hm : m ∈ ir.models) : Grounded ir m := by
  have hunique := nodup_ids h hd
  obtain ⟨lib, _, _, _, hlib, hfragments, -⟩ := build_eq_ok h
  have hstacked := (FragmentLibrary.wired_ofDocument hlib).stacked
  have hlibrary := hstacked.grounded hunique fun b hb m hm ↦ by
    obtain ⟨r, hr, -, hinterface⟩ := exists_fragment_of_mem_built hlib hfragments hb
    exact (Representation.HasGroup.interface hr).mem_models (hinterface ▸ hm)
  -- The interfaces of the result are those of the library, and nothing is built from anything else.
  have hfragment : ∀ r ∈ ir.fragments, ∀ m ∈ r.interface.allModels, Grounded ir m := by
    intro r hr
    obtain ⟨_, -, hok⟩ := exists_of_mem_buildFragments hfragments hr
    obtain ⟨-, -, b, hb, -, hinterface⟩ := buildFragment_eq_ok hok
    exact hinterface ▸ hlibrary b (List.mem_of_find?_eq_some hb)
  have hplaced : ∀ {f : Field} {site : Site} {inherited : List ModelGroup} {g : ModelGroup},
      Placed schema d config.typename ir f site inherited g →
      (∀ h ∈ inherited, ∀ m ∈ h.allModels, Grounded ir m) → ∀ m ∈ g.allModels, Grounded ir m := by
    intro f site inherited g hplaced hinherited
    obtain ⟨interfaces, hoffers, hgroup⟩ := hplaced.built
    refine Field.grounded hunique (fun name g hok ↦ ?_) hgroup hinherited fun m hm ↦
      hplaced.mem.mem_models hm
    obtain ⟨r, hr, -, rfl⟩ := hoffers name g hok
    exact hfragment r hr
  obtain ⟨⟨root, g⟩, hg, hm⟩ := List.mem_flatMap.mp hm
  rcases Representation.mem_trees_iff.mp hg with
    ⟨o, ho, -, rfl⟩ | ⟨r, hr, ⟨-, rfl⟩ | ⟨-, himplementation⟩⟩
  · exact hplaced (.operation h ho) (fun _ hmem ↦ absurd hmem List.not_mem_nil) m hm
  · exact hfragment r hr m hm
  · refine hplaced (.implementation h hr himplementation) (fun g hmem ↦ ?_) m hm
    exact List.mem_singleton.mp hmem ▸ hfragment r hr

/-- A model implements a model of the list that its ids are taken from. -/
theorem mem_of_implements {m n : Model} (hmn : ir.Implements m n) {sups : List Model}
    (himplements : m.implements = sups.map Model.id) (hsups : ∀ n ∈ sups, n ∈ ir.models) :
    n ∈ sups := by
  obtain ⟨-, hn, hid⟩ := hmn
  rw [himplements] at hid
  obtain ⟨n', hn', heq⟩ := List.mem_map.mp hid
  exact List.inj_on_of_nodup_map (nodup_ids h hd) (hsups n' hn') hn heq ▸ hn'

/-- What a model implements is an interface and is for at least its object types. -/
theorem Representation.Implements.covers {m n : Model} (hmn : ir.Implements m n) :
    n.isInterface = true ∧ m.possibleTypes ⊆ n.possibleTypes := by
  obtain ⟨sups, himplements, -, hsups⟩ := Representation.exists_supers h hmn.1
  exact (hsups n (mem_of_implements h hd hmn himplements fun n hn ↦ (hsups n hn).1)).2

/-- **The graph of models is well formed.** In the result of a build, no model implements another
twice, and every id that it implements is that of a model. What a model implements is an interface
and is for at least its object types. There is no cycle. -/
theorem inheritance_wellFormed :
    (∀ m ∈ ir.models, m.implements.Nodup ∧ ∀ id ∈ m.implements, ∃ n, ir.Implements m n ∧
      n.id = id) ∧
      (∀ m n, ir.Implements m n → n.isInterface = true ∧ m.possibleTypes ⊆ n.possibleTypes) ∧
      ∀ m, ¬ Relation.TransGen ir.Implements m m := by
  refine ⟨fun m hm ↦ ?_, fun m n hmn ↦ hmn.covers h hd, fun m hcycle ↦ ?_⟩
  · obtain ⟨sups, himplements, hnodup, hsups⟩ := Representation.exists_supers h hm
    refine ⟨himplements ▸ hnodup, fun id hid ↦ ?_⟩
    have hid' := hid
    rw [himplements] at hid'
    obtain ⟨n, hn, rfl⟩ := List.mem_map.mp hid'
    exact ⟨n, ⟨hm, (hsups n hn).1, hid⟩, rfl⟩
  · have hwf : WellFounded fun n m ↦ ir.Implements m n := by
      refine ⟨fun m ↦ ?_⟩
      by_cases hm : m ∈ ir.models
      · exact (grounded_of_build h hd hm).2
      · exact .intro m fun n hmn ↦ absurd hmn.1 hm
    have hcycle' := Relation.transGen_swap.mpr hcycle
    exact hwf.transGen.asymmetric m m hcycle' hcycle'

end build

open Sample in
/-- In the sample, the model of a dog implements that of a pet and the interface of the fragment,
and that of a pet implements the interface of the fragment too. -/
theorem inheritance_wellFormed_dog :
    ∃ ir, build schema {} document = .ok ir ∧ document.UniqueNames ∧ ∃ dog pet company,
      ir.Implements dog pet ∧ ir.Implements dog company ∧ ir.Implements pet company ∧
      dog.possibleTypes = {"Dog"} ∧ pet.isInterface = true ∧ dog.possibleTypes ⊆ pet.possibleTypes ∧
      company.isInterface = true ∧ pet.possibleTypes ⊆ company.possibleTypes ∧
      ¬ Relation.TransGen ir.Implements company dog := by
  obtain ⟨ir, hir, hcheck⟩ := Error.exists_of_any (x := build schema {} document)
    (p := fun ir ↦ ir.models.any fun dog ↦ dog.possibleTypes = {"Dog"} && ir.models.any fun pet ↦
      ir.models.any fun company ↦ pet.id ∈ dog.implements && company.id ∈ dog.implements &&
        company.id ∈ pet.implements) (by decide +kernel)
  simp only [List.any_eq_true, Bool.and_eq_true, decide_eq_true_eq] at hcheck
  obtain ⟨dog, hdog, htypes, pet, hpet, company, hcompany, ⟨hdp, hdc⟩, hpc⟩ := hcheck
  have hd : document.UniqueNames := ⟨by decide, by decide⟩
  obtain ⟨-, hedges, hacyclic⟩ := inheritance_wellFormed hir hd
  have hdogPet : ir.Implements dog pet := ⟨hdog, hpet, hdp⟩
  have hdogCompany : ir.Implements dog company := ⟨hdog, hcompany, hdc⟩
  have hpetCompany : ir.Implements pet company := ⟨hpet, hcompany, hpc⟩
  refine ⟨ir, hir, hd, dog, pet, company, hdogPet, hdogCompany, hpetCompany, htypes,
    (hedges _ _ hdogPet).1, (hedges _ _ hdogPet).2, (hedges _ _ hpetCompany).1,
    (hedges _ _ hpetCompany).2, fun hcycle ↦ ?_⟩
  exact hacyclic dog (hcycle.head hdogCompany)

end ResponseModels
