import ResponseModels.Proofs.Cycles
import ResponseModels.Proofs.Model.Downcast

/-!
# What models of one group implement of each other

The models of a group are for the shapes of a field, and what they implement of each other follows
the inclusion of the type sets: a primary model implements the primary models of the *next* wider
shapes, those with no other shape in between. So it reaches those of all wider shapes, and no
others. An `Other` model implements the primary model of its shape and nothing else.

That the next wider ones are implemented is plain from how a model is built. That no others of the
group are is not, because a model also implements the best matches in groups that its own group
inherits from and in the interfaces of fragments, and all of these are told apart by their ids only.
None of them has an id that a model of the group could have (`Field.Secluded`). This is carried down
the trees: what the group of a property inherits from stands beneath models that the model around it
implements, and a model does not implement itself; and the interface of a fragment is not matched in
its own tree because a fragment does not spread itself.
-/

set_option autoImplicit false

namespace ResponseModels

open Relation (TransGen)

/-! ## Statements -/

/-- A group in one of the trees, with the field that it is for. -/
inductive Representation.HasGroupFor (ir : Representation) : Field → ModelGroup → Prop
  | operation {o : OperationModels} (mem : o ∈ ir.operations) : ir.HasGroupFor o.field o.group
  | interface {r : FragmentModels} (mem : r ∈ ir.fragments) : ir.HasGroupFor r.field r.interface
  | implementation {r : FragmentModels} {g : ModelGroup} (mem : r ∈ ir.fragments)
      (implementation : r.implementation = some g) : ir.HasGroupFor r.field g
  | property {f k : Field} {g inner : ModelGroup} {m : Model} {p : Property} {s : FieldSet}
      (outer : ir.HasGroupFor f g) (model : m ∈ g.models) (property : p ∈ m.properties)
      (group : p.group = some inner) (shape : s ∈ f.fieldSets) (typeSet : s.typeSet = m.typeSet)
      (field : k ∈ s.fields) (responseName : k.responseName = p.info.responseName) :
      ir.HasGroupFor k inner

/-- A model of a group implements another of the same group. -/
def ModelGroup.Implements (g : ModelGroup) (m n : Model) : Prop :=
  m ∈ g.models ∧ n ∈ g.models ∧ n.id ∈ m.implements

/-- A type set comes right before a narrower one: no shape of the field lies in between. -/
def Field.ComesBefore (f : Field) (wide narrow : NameSet) : Prop :=
  wide ⊂ narrow ∧ ∀ s ∈ f.fieldSets, ¬ (wide ⊂ s.typeSet ∧ s.typeSet ⊂ narrow)

/-- What the models of a group implement of each other follows the shapes of the field. -/
structure ModelGroup.FollowsShapes (f : Field) (g : ModelGroup) : Prop where
  /-- Every shape has one primary model. -/
  primary : ∀ s ∈ f.fieldSets, ∃ m, g.IsPrimary s.typeSet m ∧ ∀ n, g.IsPrimary s.typeSet n → n = m
  /-- It implements, of the group, the primary models of the shapes that come right before. -/
  next : ∀ a ∈ f.fieldSets, ∀ b ∈ f.fieldSets, ∀ m n, g.IsPrimary a.typeSet m →
    g.IsPrimary b.typeSet n → (n.id ∈ m.implements ↔ f.ComesBefore b.typeSet a.typeSet)
  /-- So it reaches the primary models of just the wider shapes. -/
  reaches : ∀ a ∈ f.fieldSets, ∀ b ∈ f.fieldSets, ∀ m n, g.IsPrimary a.typeSet m →
    g.IsPrimary b.typeSet n → (TransGen g.Implements m n ↔ b.typeSet ⊂ a.typeSet)
  /-- An `Other` model implements the primary model of its shape, an interface, and nothing else. -/
  other : ∀ m ∈ g.models, g.IsOther m → ∃ n, g.IsPrimary m.typeSet n ∧ n.isInterface = true ∧
    m.implements = [n.id]

/-! ## Ids of a group -/

/-- No group that can be inherited from has an id of the site. -/
structure Field.Secluded (f : Field) (site : Site) (inherited : List ModelGroup) : Prop where
  /-- The models of inherited groups have other ids. -/
  inherits : ∀ h ∈ inherited, ∀ n ∈ h.models, ∀ name, n.id ≠ site.id name
  /-- The interface of a fragment does not inherit from itself. -/
  unspread : ∀ name, site.root = .fragmentInterface name → name ∉ f.spreads

namespace Placed

variable {schema : Schema} {d : Document} {policy : TypenamePolicy} {ir : Representation}
  {f : Field} {site : Site} {inherited : List ModelGroup} {g : ModelGroup}
  (h : Placed schema d policy ir f site inherited g)
include h

/-- The models of a group are told apart by their ids. -/
theorem eq_of_id_eq {m n : Model} (hm : m ∈ g.models) (hn : n ∈ g.models) (hid : m.id = n.id) :
    m = n := by
  obtain ⟨interfaces, -, hgroup⟩ := h.built
  obtain ⟨built, hraises, hmodels, hplanned, -⟩ := Field.raises_of_modelGroup hgroup
  have hnames : g.models.map Model.name = (f.plan site).map PlannedModel.name := by
    rw [hmodels, ← hplanned, List.map_map, List.map_map]
    exact List.map_congr_left fun b hb ↦ (hraises.keeps hb).name
  refine List.inj_on_of_nodup_map (hnames ▸ f.nodup_names_plan site) hm hn ?_
  rw [h.id_eq hm, h.id_eq hn, ModelId.mk.injEq, List.append_cancel_left_eq, List.cons.injEq] at hid
  exact hid.2.1

/-- A shape has only one primary model. -/
theorem unique_isPrimary {typeSet : NameSet} {m n : Model} (hm : g.IsPrimary typeSet m)
    (hn : g.IsPrimary typeSet n) : m = n := by
  obtain ⟨b, rfl, hplan, hkeeps, hprimary, hset⟩ := h.exists_planned hm
  obtain ⟨c, rfl, hplan', hkeeps', hprimary', hset'⟩ := h.exists_planned hn
  obtain ⟨_, _, -, hu⟩ := h.exists_unfolds
  have heq : b.planned = c.planned :=
    Field.eq_of_primary hu.shaped.nodup_fieldSets hplan hplan' hprimary hprimary'
      (hset.trans hset'.symm)
  exact h.eq_of_id_eq hm.mem hn.mem (by rw [hkeeps.id, hkeeps'.id, heq])

end Placed

/-- What is in the group of a property has an id that continues that of the model. -/
theorem Representation.HasGroup.id_of_property {schema : Schema} {config : Config} {d : Document}
    {ir : Representation} (h : build schema config d = .ok ir) {g inner : ModelGroup}
    (hg : ir.HasGroup g) {n : Model} (hn : n ∈ g.models) {q : Property} (hq : q ∈ n.properties)
    (hinner : q.group = some inner) {x : Model} (hx : x ∈ inner.models) :
    x.id = ⟨n.id.root, n.id.path ++ [q.info.responseName] ++ [x.name]⟩ := by
  obtain ⟨f, site, inherited, hplaced⟩ := hg.exists_placed h
  obtain ⟨_, -, -, k, -, hinfo, site', _, hsite, -, -, hnested⟩ := hplaced.nested hn hq hinner
  have hname : k.responseName = q.info.responseName := (congrArg FieldInfo.responseName hinfo).symm
  rw [hnested.id_eq hx, hsite.root, hsite.path, hname]

/-! ## Nothing else of the group is implemented -/

section

variable {schema : Schema} {config : Config} {d : Document} {ir : Representation}
  (hbuild : build schema config d = .ok ir) {f : Field} {site : Site} {inherited : List ModelGroup}
  {g : ModelGroup} (h : Placed schema d config.typename ir f site inherited g)
  (hsecluded : f.Secluded site inherited)
include hbuild h hsecluded

omit h in
/-- A match in another group does not have an id of the site. -/
theorem Field.Secluded.id_ne {interfaces : Name → Except Error ModelGroup}
    (hoffers : ir.Offers interfaces) {p : PlannedModel} (hp : p ∈ f.plan site) {g' : ModelGroup}
    (hg' : g' ∈ inherited ∨ ∃ name ∈ p.fieldSet.fragments, interfaces name = .ok g') {n : Model}
    (hn : n ∈ g'.mostSpecific p.possibleTypes) (name : String) : n.id ≠ site.id name := by
  have hmem := (ModelGroup.of_mem_mostSpecific hn).1
  rcases hg' with hg' | ⟨fragment, hfragment, hok⟩
  · exact hsecluded.inherits g' hg' n hmem name
  · obtain ⟨r, hr, rfl, rfl⟩ := hoffers fragment g' hok
    intro hid
    rw [(Placed.interface hbuild hr).id_eq hmem] at hid
    have hroot : site.root = .fragmentInterface r.name := (congrArg ModelId.root hid).symm
    exact hsecluded.unspread r.name hroot
      (Field.mem_spreads.mpr (.inr ⟨_, fieldSet_mem_of_mem_plan hp, .inl hfragment⟩))

/-- **What a model implements of its own group**: a primary model a primary model of a next wider
shape, and an `Other` model the primary model of its shape. -/
theorem Placed.of_implements {m n : Model} (hmn : g.Implements m n) :
    ¬ g.IsOther m ∧ ¬ g.IsOther n ∧ n.typeSet ∈ f.nextWider m.typeSet ∨
      g.IsOther m ∧ g.IsPrimary m.typeSet n ∧ m.implements = [n.id] := by
  obtain ⟨hm, hn, hid⟩ := hmn
  obtain ⟨interfaces, before, sups, b, hoffers, rfl, hplan, hkeeps, hfollows, hbefore⟩ :=
    h.exists_follows hm
  rw [hfollows.implements] at hid
  cases hother : b.planned.isOther with
  | true =>
    obtain ⟨only, rfl⟩ := hfollows.supers.alone hother
    obtain ⟨c, hc, hset, hprimary, hown⟩ := hfollows.supers.own hother
    obtain ⟨hmem, hplan', hkeeps'⟩ := hbefore c hc
    rw [List.map_singleton, List.mem_singleton] at hid hown
    cases h.eq_of_id_eq hn hmem (hid.trans hown.symm)
    refine .inr ⟨(h.isOther_iff hplan hkeeps).mpr hother,
      ?_, by rw [hfollows.implements, List.map_singleton, hown]⟩
    rw [hkeeps.typeSet, ← hset]
    exact h.isPrimary hmem hplan' hkeeps' hprimary
  | false =>
    obtain ⟨n', hn', heq⟩ := List.mem_map.mp hid
    rcases hfollows.supers.beside hother n' hn' with ⟨c, hc, rfl, hnext, hprimary⟩ |
      ⟨g', hg', hmatch⟩
    · obtain ⟨hmem, hplan', hkeeps'⟩ := hbefore c hc
      cases h.eq_of_id_eq hn hmem heq.symm
      refine .inl ⟨fun hm ↦ ?_, (h.isPrimary hmem hplan' hkeeps' hprimary).notOther, ?_⟩
      · exact absurd (((h.isOther_iff hplan hkeeps).mp hm).symm.trans hother) (by decide)
      · rwa [hkeeps.typeSet, hkeeps'.typeSet]
    · rw [h.id_eq hn] at heq
      exact absurd heq (hsecluded.id_ne hbuild hoffers hplan hg' hmatch n.name)

theorem Placed.not_implements_self {m : Model} (hm : m ∈ g.models) : m.id ∉ m.implements := by
  intro hid
  rcases h.of_implements hbuild hsecluded ⟨hm, hm, hid⟩ with ⟨-, -, hnext⟩ | ⟨hother, hprimary, -⟩
  · exact Nat.lt_irrefl _ (Field.of_mem_nextWider hnext).1
  · exact hprimary.notOther hother

/-- **The groups of properties are secluded too.** -/
theorem Placed.secluded_property {m : Model} (hm : m ∈ g.models) {k : Field} {s : FieldSet}
    (hs : s ∈ f.fieldSets) (hk : k ∈ s.fields) {site' : Site}
    (hsite : site'.IsBeneath m k.responseName) {sups : List Model}
    (himplements : m.implements = sups.map Model.id)
    (hsups : ∀ n ∈ sups, ∃ g', ir.HasGroup g' ∧ n ∈ g'.models) :
    k.Secluded site' (inheritedGroups sups k.responseName) where
  inherits h' hh' x hx name hid := by
    obtain ⟨n, hn, q, hq, hname, hgroup⟩ := exists_of_mem_inheritedGroups hh'
    obtain ⟨g', hg', hmem⟩ := hsups n hn
    -- The ids would continue those of the models in the same way, so that the model would implement
    -- itself.
    have hsame : n.id = m.id := by
      rw [hg'.id_of_property hbuild hmem hq hgroup hx, Site.id, hsite.root, hsite.path, hname,
        ModelId.mk.injEq] at hid
      exact congrArg₂ ModelId.mk hid.1 (List.append_inj' (List.append_inj' hid.2 rfl).1 rfl).1
    refine h.not_implements_self hbuild hsecluded hm ?_
    rw [himplements, ← hsame]
    exact List.mem_map_of_mem hn
  unspread name hroot hmem := by
    rw [hsite.root, h.id_eq hm] at hroot
    exact hsecluded.unspread name hroot (Field.mem_spreads.mpr (.inr ⟨s, hs, .inr ⟨k, hk, hmem⟩⟩))

/-! ## The order of the shapes -/

/-- **A primary model implements, of its group, the primary models of the next wider shapes.** -/
theorem Placed.mem_implements_iff {a : NameSet} {m n : Model} (hm : g.IsPrimary a m) {b : FieldSet}
    (hb : b ∈ f.fieldSets) (hn : g.IsPrimary b.typeSet n) :
    n.id ∈ m.implements ↔ f.ComesBefore b.typeSet a := by
  obtain rfl := hm.typeSet_eq
  rw [Field.ComesBefore, ← Field.mem_nextWider_iff hb]
  constructor
  · intro hid
    rcases h.of_implements hbuild hsecluded ⟨hm.mem, hn.mem, hid⟩ with ⟨-, -, hnext⟩ | ⟨hother, -⟩
    · rwa [hn.typeSet_eq] at hnext
    · exact absurd hother hm.notOther
  · intro hnext
    obtain ⟨n', hn', -, -, hid⟩ := h.exists_wider hm hnext
    rwa [h.unique_isPrimary hn hn']

/-- Going on from a primary model within the group, one gets to primary models of wider shapes
only. -/
theorem Placed.of_transGen_implements {m n : Model} (hm : ¬ g.IsOther m)
    (hmn : TransGen g.Implements m n) :
    ¬ g.IsOther n ∧ n.typeSet ⊂ m.typeSet := by
  have hstep : ∀ {m n}, ¬ g.IsOther m → g.Implements m n → ¬ g.IsOther n ∧
      n.typeSet ⊂ m.typeSet := by
    intro m n hm hmn
    rcases h.of_implements hbuild hsecluded hmn with ⟨-, hn, hnext⟩ | ⟨hother, -⟩
    · exact ⟨hn, Field.of_mem_nextWider hnext⟩
    · exact absurd hother hm
  induction hmn with
  | single hmn => exact hstep hm hmn
  | tail _ hnx ih =>
    obtain ⟨hx, hlt⟩ := hstep ih.1 hnx
    exact ⟨hx, Nat.lt_trans hlt.1 ih.2.1, fun c hc ↦ ih.2.2 c (hlt.2 c hc)⟩

omit hbuild hsecluded in
/-- From a primary model one gets, within the group, to those of all wider shapes. -/
theorem Placed.transGen_implements {m n : Model} {a : NameSet} (hm : g.IsPrimary a m) {b : FieldSet}
    (hb : b ∈ f.fieldSets) (hn : g.IsPrimary b.typeSet n) (hlt : b.typeSet ⊂ a) :
    TransGen g.Implements m n := by
  induction hsize : a.size using Nat.strong_induction_on generalizing a m with
  | _ size ih =>
    obtain rfl := hm.typeSet_eq
    obtain ⟨next, hnext, hle⟩ := Field.exists_nextWider hb hlt
    obtain ⟨n', hn', -, -, hid⟩ := h.exists_wider hm hnext
    have hfirst : g.Implements m n' := ⟨hm.mem, hn'.mem, hid⟩
    -- The shape that is looked for is the next one, or lies beyond it.
    by_cases heq : b.typeSet = next
    · rw [h.unique_isPrimary hn (heq ▸ hn')]
      exact .single hfirst
    · have hsmaller : next.size < size := hsize ▸ (Field.of_mem_nextWider hnext).1
      exact .head hfirst (ih _ hsmaller hn' (NameSet.ssubset_iff_subset_ne.mpr ⟨hle, heq⟩) rfl)

/-- **The models of a secluded group follow the shapes of the field.** -/
theorem Placed.followsShapes : g.FollowsShapes f where
  primary s hs := by
    obtain ⟨m, hm⟩ := h.exists_isPrimary hs
    exact ⟨m, hm, fun n hn ↦ h.unique_isPrimary hn hm⟩
  next a _ b hb m n hm hn := h.mem_implements_iff hbuild hsecluded hm hb hn
  reaches a _ b hb m n hm hn := by
    refine ⟨fun hmn ↦ ?_, fun hlt ↦ h.transGen_implements hm hb hn hlt⟩
    rw [← hm.typeSet_eq, ← hn.typeSet_eq]
    exact (h.of_transGen_implements hbuild hsecluded hm.notOther hmn).2
  other m hm hother := by
    obtain ⟨n, hn, -, -, hid⟩ := h.exists_own hm hother
    rcases h.of_implements hbuild hsecluded ⟨hm, hn.mem, hid⟩ with ⟨hprimary, -⟩ | ⟨-, -, honly⟩
    · exact absurd hother hprimary
    · refine ⟨n, hn, ?_, honly⟩
      -- A model of a shape with an interface is that interface if it is not an `Other` model.
      obtain ⟨-, i, hi, hset, hinterface⟩ := hother
      by_contra hconcrete
      exact hn.notOther ⟨Bool.eq_false_iff.mpr hconcrete, i, hi,
        hset.trans hn.typeSet_eq.symm, hinterface⟩

end

/-! ## The whole representation -/

section build

variable {schema : Schema} {config : Config} {d : Document} {ir : Representation}
  (h : build schema config d = .ok ir)
include h

/-- **Every group is secluded.** -/
theorem Representation.HasGroupFor.exists_secluded {f : Field} {g : ModelGroup}
    (hg : ir.HasGroupFor f g) :
    ∃ site inherited, Placed schema d config.typename ir f site inherited g ∧
      f.Secluded site inherited := by
  induction hg with
  | operation mem =>
    refine ⟨_, _, .operation h mem, fun _ hmem ↦ absurd hmem List.not_mem_nil, fun name hroot ↦ ?_⟩
    cases hroot
  | @interface r mem =>
    refine ⟨_, _, .interface h mem, fun _ hmem ↦
      absurd hmem List.not_mem_nil, fun name hroot hspread ↦ ?_⟩
    cases hroot
    exact not_transGen_records h r.name (.single ⟨r, mem, rfl, hspread⟩)
  | @implementation r g mem himplementation =>
    refine ⟨_, _, .implementation h mem himplementation, fun h' hmem n hn name hid ↦ ?_,
      fun name hroot ↦ ?_⟩
    · cases List.mem_singleton.mp hmem
      rw [(Placed.interface h mem).id_eq hn] at hid
      cases congrArg ModelId.root hid
    · cases hroot
  | property _ model property group shape typeSet field responseName ih =>
    obtain ⟨site, inherited, hplaced, hsecluded⟩ := ih
    obtain ⟨s, hs, hset, k, hk, hinfo, site', sups, hsite, himplements, hsups, hinner⟩ :=
      hplaced.nested model property group
    obtain ⟨_, survey, -, hu⟩ := hplaced.exists_unfolds
    cases hu.shaped.fieldSet_eq hs shape (hset.trans typeSet.symm)
    cases List.inj_on_of_nodup_map (hu.nodup_fields hs) hk field
      ((congrArg FieldInfo.responseName hinfo).symm.trans responseName.symm)
    exact ⟨site', _, hinner,
      hplaced.secluded_property h hsecluded model hs hk hsite himplements hsups⟩

/-- Every group is for a field. -/
theorem Representation.HasGroup.exists_field {g : ModelGroup} (hg : ir.HasGroup g) :
    ∃ f, ir.HasGroupFor f g := by
  induction hg with
  | operation mem => exact ⟨_, .operation mem⟩
  | interface mem => exact ⟨_, .interface mem⟩
  | implementation mem himplementation => exact ⟨_, .implementation mem himplementation⟩
  | property _ model property group ih =>
    obtain ⟨f, hf⟩ := ih
    obtain ⟨site, inherited, hplaced, -⟩ := hf.exists_secluded h
    obtain ⟨s, hs, hset, k, hk, hinfo, -⟩ := hplaced.nested model property group
    exact ⟨k,
      .property hf model property group hs hset hk (congrArg FieldInfo.responseName hinfo).symm⟩

end build

/-- **Inheritance in a group follows the shapes of the field.** In the result of a build, every
group of models is for a field, be it for interfaces only or not. Every shape of the field has one
primary model. That of a shape implements that of another just when the type set of the other is a
strict subset and no shape lies strictly between the two. So it reaches that of another within the
group just when the type set of the other is a strict subset. An `Other` model implements the
interface of its own shape and nothing else. -/
theorem siblings_follow_shapes {schema : Schema} {config : Config} {d : Document}
    {ir : Representation} (h : build schema config d = .ok ir) :
    (∀ g, ir.HasGroup g → ∃ f, ir.HasGroupFor f g) ∧ ∀ f g, ir.HasGroupFor f g →
      g.FollowsShapes f := by
  refine ⟨fun g hg ↦ hg.exists_field h, fun f g hg ↦ ?_⟩
  obtain ⟨site, inherited, hplaced, hsecluded⟩ := hg.exists_secluded h
  exact hplaced.followsShapes h hsecluded

open Sample in
/-- In the sample, the model of dogs implements that of pets, through which it reaches that of
animals. It does not implement the latter itself. -/
theorem siblings_follow_shapes_dog :
    ∃ ir, build schema {} document = .ok ir ∧ ∃ f g, ir.HasGroupFor f g ∧ ∃ animal pet dog,
      g.IsPrimary {"Animal"} animal ∧ g.IsPrimary (.ofList ["Animal", "Pet"]) pet ∧
      g.IsPrimary (.ofList ["Animal", "Dog", "Pet"]) dog ∧ pet.id ∈ dog.implements ∧
      animal.id ∉ dog.implements ∧ TransGen g.Implements dog animal := by
  obtain ⟨ir, hir, hcheck⟩ := Error.exists_of_any (x := build schema {} document)
    (p := fun ir ↦ ir.operations.any fun o ↦
      o.group.models.any fun m ↦ m.properties.any fun p ↦ p.group.any fun g ↦
      o.field.fieldSets.any fun s₀ ↦ s₀.typeSet = m.typeSet && s₀.fields.any fun f ↦
        f.responseName = p.info.responseName &&
        f.fieldSets.any fun animals ↦ animals.typeSet = {"Animal"} &&
        f.fieldSets.any fun pets ↦ pets.typeSet = .ofList ["Animal", "Pet"] &&
        f.fieldSets.any fun dogs ↦ dogs.typeSet = .ofList ["Animal", "Dog", "Pet"] &&
        f.fieldSets.all fun s ↦ ¬ (pets.typeSet ⊂ s.typeSet ∧ s.typeSet ⊂ dogs.typeSet))
    (by decide +kernel)
  simp only [List.any_eq_true, List.all_eq_true, Option.any_eq_true, Bool.and_eq_true,
    decide_eq_true_eq] at hcheck
  obtain ⟨o, ho, m, hm, p, hp, g, hg, s₀, hs₀, hset, f, hf, hname, animals, hanimals, hanimalSet,
    pets, hpets, hpetSet, dogs, hdogs, hdogSet, hnone⟩ := hcheck
  have hgroup : ir.HasGroupFor f g := .property (.operation ho) hm hp hg hs₀ hset hf hname
  have hshapes := (siblings_follow_shapes hir).2 f g hgroup
  obtain ⟨animal, hanimal, -⟩ := hshapes.primary animals hanimals
  obtain ⟨pet, hpet, -⟩ := hshapes.primary pets hpets
  obtain ⟨dog, hdog, -⟩ := hshapes.primary dogs hdogs
  have hanimalPet : animals.typeSet ⊂ pets.typeSet := by
    rw [hanimalSet, hpetSet]
    decide
  have hpetDog : pets.typeSet ⊂ dogs.typeSet := by
    rw [hpetSet, hdogSet]
    decide
  have hanimalDog : animals.typeSet ⊂ dogs.typeSet := by
    rw [hanimalSet, hdogSet]
    decide
  refine ⟨ir, hir, f, g, hgroup, animal, pet, dog, hanimalSet ▸ hanimal, hpetSet ▸ hpet,
    hdogSet ▸ hdog, ?_, fun hid ↦ ?_, ?_⟩
  · exact (hshapes.next dogs hdogs pets hpets dog pet hdog hpet).mpr ⟨hpetDog, hnone⟩
  · obtain ⟨-, hbetween⟩ :=
      (hshapes.next dogs hdogs animals hanimals dog animal hdog hanimal).mp hid
    exact hbetween pets hpets ⟨hanimalPet, hpetDog⟩
  · exact (hshapes.reaches dogs hdogs animals hanimals dog animal hdog hanimal).mpr hanimalDog

end ResponseModels
