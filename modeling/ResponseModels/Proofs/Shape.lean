import Mathlib.Data.List.Nodup
import ResponseModels.Proofs.Execution
import ResponseModels.Shape

/-!
# The shapes of a field

Beneath a field of some type, type conditions are met. Each object type of the field satisfies some
of them, and these, with the raw type, are its type set (`Schema.typeSetOf`). The shapes derived
from the type conditions are the type sets of the object types, each with the object types it
belongs to, and the shape of the raw type alone (`Schema.mem_derivedShapes`). No two have the same
type set.

Sorting shapes brings them into a strict order, if their type sets differ (`pairwise_sortShapes`).

`Shaped` says what is known of all the shapes of a field. It is what later proofs use: of the shapes
that have an object type, one has the largest type set, which is that of the object type
(`Shaped.exists_largest`).
-/

set_option autoImplicit false

namespace ResponseModels

/-! ## Sets of names -/

namespace NameSet

theorem toList_inj {a b : NameSet} : a.toList = b.toList ↔ a = b :=
  ⟨fun h ↦ ext fun n ↦ by rw [← mem_toList, h, mem_toList], fun h ↦ h ▸ rfl⟩

theorem Subset.antisymm {a b : NameSet} (hab : a ⊆ b) (hba : b ⊆ a) : a = b :=
  ext fun n ↦ ⟨hab n, hba n⟩

theorem Subset.sublist {a b : NameSet} (h : a ⊆ b) : a.toList.Sublist b.toList :=
  Ascending.sublist_of_subset a.ascending b.ascending h

theorem Subset.size_le {a b : NameSet} (h : a ⊆ b) : a.size ≤ b.size :=
  (sublist h).length_le

/-- A set is strictly below another if it is below it and not the same. -/
theorem ssubset_iff_subset_ne {a b : NameSet} : a ⊂ b ↔ a ⊆ b ∧ a ≠ b := by
  rw [ssubset_iff]
  constructor
  · rintro ⟨hlt, hsub⟩
    refine ⟨hsub, ?_⟩
    rintro rfl
    exact Nat.lt_irrefl _ hlt
  · rintro ⟨hsub, hne⟩
    refine ⟨Nat.lt_of_le_of_ne (Subset.size_le hsub) fun hsize ↦ hne ?_, hsub⟩
    exact toList_inj.mp ((Subset.sublist hsub).eq_of_length hsize)

theorem singleton_subset {n : Name} {s : NameSet} : {n} ⊆ s ↔ n ∈ s := by
  rw [subset_iff]
  exact ⟨fun h ↦ h n (mem_singleton.mpr rfl), fun h m hm ↦ mem_singleton.mp hm ▸ h⟩

/-- A set that has one member has no other. -/
theorem size_eq_one_iff {n : Name} {s : NameSet} (h : n ∈ s) : s.size = 1 ↔ s = {n} := by
  constructor
  · intro hsize
    have hle : ¬ ({n} : NameSet) ⊂ s := fun hlt ↦ by
      have h1 : ({n} : NameSet).size = 1 := rfl
      have h2 := hlt.1
      omega
    refine Classical.byContradiction fun hne ↦ hle ?_
    exact ssubset_iff_subset_ne.mpr ⟨singleton_subset.mpr h, fun heq ↦ hne heq.symm⟩
  · rintro rfl
    rfl

theorem isEmpty_eq_false {s : NameSet} : s.isEmpty = false ↔ ∃ n, n ∈ s := by
  rw [isEmpty, List.isEmpty_eq_false_iff_exists_mem]
  rfl

/-- The strict order of type sets: by size, and sets of one size by their members. -/
def Before (a b : NameSet) : Prop :=
  a.size < b.size ∨ a.size = b.size ∧ compare a.toList b.toList = .lt

theorem Before.trans {a b c : NameSet} (hab : a.Before b) (hbc : b.Before c) : a.Before c := by
  rcases hab with hab | ⟨hab, hab'⟩ <;> rcases hbc with hbc | ⟨hbc, hbc'⟩
  · exact .inl (Nat.lt_trans hab hbc)
  · exact .inl (hbc ▸ hab)
  · exact .inl (hab ▸ hbc)
  · exact .inr ⟨hab.trans hbc, Std.TransCmp.lt_trans hab' hbc'⟩

theorem Before.irrefl (a : NameSet) : ¬ a.Before a := by
  rintro (hlt | ⟨-, hlt⟩)
  · exact Nat.lt_irrefl _ hlt
  · exact absurd (hlt.symm.trans Std.ReflCmp.compare_self) (by decide)

theorem before_or_eq_or_before (a b : NameSet) : a.Before b ∨ a = b ∨ b.Before a := by
  rcases Nat.lt_trichotomy a.size b.size with hlt | hsize | hgt
  · exact .inl (.inl hlt)
  · cases hc : compare a.toList b.toList with
    | lt => exact .inl (.inr ⟨hsize, hc⟩)
    | eq => exact .inr (.inl (toList_inj.mp (Std.LawfulEqOrd.eq_of_compare hc)))
    | gt => exact .inr (.inr (.inr ⟨hsize.symm, Std.OrientedCmp.lt_of_gt hc⟩))
  · exact .inr (.inr (.inl hgt))

end NameSet

/-! ## Sorting -/

theorem Shape.le_iff {a b : Shape} :
    a.le b = true ↔ a.typeSet.Before b.typeSet ∨ a.typeSet = b.typeSet := by
  have hcompare : compare a.typeSet b.typeSet = compare a.typeSet.toList b.typeSet.toList := rfl
  rw [le, Ordering.isLE_then_iff_or, Nat.compare_eq_lt, Nat.compare_eq_eq, hcompare,
    Ordering.isLE_iff_eq_lt_or_eq_eq, Std.LawfulEqOrd.compare_eq_iff_eq, NameSet.toList_inj,
    NameSet.Before]
  constructor
  · rintro (hlt | ⟨hsize, hlt | heq⟩)
    · exact .inl (.inl hlt)
    · exact .inl (.inr ⟨hsize, hlt⟩)
    · exact .inr heq
  · rintro ((hlt | ⟨hsize, hlt⟩) | heq)
    · exact .inl hlt
    · exact .inr ⟨hsize, .inl hlt⟩
    · exact .inr ⟨congrArg NameSet.size heq, .inr heq⟩

theorem Shape.le_trans {a b c : Shape} (hab : a.le b = true) (hbc : b.le c = true) :
    a.le c = true := by
  rw [le_iff] at hab hbc ⊢
  rcases hab with hab | hab
  · rcases hbc with hbc | hbc
    · exact .inl (hab.trans hbc)
    · exact .inl (hbc ▸ hab)
  · exact hab ▸ hbc

theorem Shape.le_total (a b : Shape) : (a.le b || b.le a) = true := by
  rw [Bool.or_eq_true, le_iff, le_iff]
  rcases a.typeSet.before_or_eq_or_before b.typeSet with hab | hab | hba
  · exact .inl (.inl hab)
  · exact .inl (.inr hab)
  · exact .inr (.inl hba)

theorem Shape.perm_insert (a : Shape) (shapes : List Shape) :
    (a.insert shapes).Perm (a :: shapes) := by
  induction shapes with
  | nil => exact .refl _
  | cons b rest ih =>
    rw [insert]
    split
    · exact .refl _
    · exact (ih.cons b).trans (.swap a b rest)

theorem perm_sortShapes (shapes : List Shape) : (sortShapes shapes).Perm shapes := by
  induction shapes with
  | nil => exact .refl _
  | cons a rest ih => exact (a.perm_insert _).trans (ih.cons a)

theorem mem_sortShapes {shape : Shape} {shapes : List Shape} :
    shape ∈ sortShapes shapes ↔ shape ∈ shapes :=
  (perm_sortShapes shapes).mem_iff

theorem nodup_sortShapes {shapes : List Shape} (h : (shapes.map Shape.typeSet).Nodup) :
    ((sortShapes shapes).map Shape.typeSet).Nodup :=
  ((perm_sortShapes shapes).map Shape.typeSet).nodup_iff.mpr h

theorem Shape.pairwise_insert (a : Shape) {shapes : List Shape}
    (h : shapes.Pairwise fun a b ↦ a.le b = true) :
    (a.insert shapes).Pairwise fun a b ↦ a.le b = true := by
  induction shapes with
  | nil => exact List.pairwise_singleton _ a
  | cons b rest ih =>
    obtain ⟨hb, hrest⟩ := List.pairwise_cons.mp h
    rw [insert]
    split
    · rename_i hab
      refine List.pairwise_cons.mpr ⟨List.forall_mem_cons.mpr ⟨hab, fun c hc ↦ ?_⟩, h⟩
      exact le_trans hab (hb c hc)
    · rename_i hab
      refine List.pairwise_cons.mpr ⟨fun c hc ↦ ?_, ih hrest⟩
      rcases List.mem_cons.mp ((a.perm_insert rest).mem_iff.mp hc) with rfl | hc
      · exact (Bool.or_eq_true_iff.mp (le_total c b)).resolve_left hab
      · exact hb c hc

/-- Sorting shapes with different type sets puts them into strict order. -/
theorem pairwise_sortShapes {shapes : List Shape} (h : (shapes.map Shape.typeSet).Nodup) :
    (sortShapes shapes).Pairwise fun a b ↦ a.typeSet.Before b.typeSet := by
  have hle : (sortShapes shapes).Pairwise fun a b ↦ a.le b = true := by
    clear h
    induction shapes with
    | nil => exact .nil
    | cons a rest ih => exact a.pairwise_insert ih
  have hne : (sortShapes shapes).Pairwise fun a b ↦ a.typeSet ≠ b.typeSet :=
    List.pairwise_map.mp (nodup_sortShapes h)
  refine (hle.and hne).imp fun hab ↦ ?_
  exact (Shape.le_iff.mp hab.1).resolve_right hab.2

/-! ## The type set of an object type -/

/-- The raw type of a field and those of the type conditions that objects of type `t` satisfy. -/
def Schema.typeSetOf (s : Schema) (rawType : Name) (typeConditions : List Name)
    (t : Name) : NameSet :=
  .ofList (rawType :: typeConditions.filter (s.satisfies t))

@[simp] theorem Schema.mem_typeSetOf {s : Schema} {rawType c t : Name}
    {typeConditions : List Name} :
    c ∈ s.typeSetOf rawType typeConditions t ↔
      c = rawType ∨ c ∈ typeConditions ∧ s.satisfies t c = true := by
  simp [typeSetOf]

/-- The type sets below that of an object type are those it satisfies. -/
theorem Schema.subset_typeSetOf_iff {s : Schema} {rawType t : Name} {typeConditions : List Name}
    {typeSet : NameSet} (hmade : ∀ c ∈ typeSet, c = rawType ∨ c ∈ typeConditions)
    (ht : s.satisfies t rawType = true) :
    typeSet ⊆ s.typeSetOf rawType typeConditions t ↔ ∀ c ∈ typeSet, s.satisfies t c = true := by
  rw [NameSet.subset_iff]
  refine forall₂_congr fun c hc ↦ ?_
  rw [mem_typeSetOf]
  constructor
  · rintro (rfl | ⟨-, hsat⟩)
    · exact ht
    · exact hsat
  · intro hsat
    exact (hmade c hc).imp_right fun hmem ↦ ⟨hmem, hsat⟩

theorem mem_satisfied {rawType c t : Name} {conditions : List (Name × NameSet)} :
    c ∈ satisfied rawType conditions t ↔ c = rawType ∨ ∃ types, (c, types) ∈ conditions ∧
      t ∈ types := by
  rw [satisfied]
  induction conditions with
  | nil => simp
  | cons first rest ih =>
    by_cases ht : t ∈ first.2
    · rw [List.filter_cons_of_pos (by simpa using ht), List.foldr_cons, NameSet.mem_insert, ih]
      grind
    · rw [List.filter_cons_of_neg (by simpa using ht), ih]
      grind

/-- What `satisfied` computes from the possible types of the conditions is the type set. -/
theorem satisfied_eq {s : Schema} {rawType : Name} {typeConditions : List Name}
    {conditions : List (Name × NameSet)}
    (h : ((typeConditions.filter (· != rawType)).mapM fun c ↦ do
      return (c, ← s.possibleTypes c)) = .ok conditions) (t : Name) :
    satisfied rawType conditions t = s.typeSetOf rawType typeConditions t := by
  ext c
  rw [mem_satisfied, Schema.mem_typeSetOf]
  by_cases hc : c = rawType
  · simp [hc]
  simp only [hc, false_or]
  constructor
  · rintro ⟨types, hmem, ht⟩
    obtain ⟨c', hc', hok⟩ := Error.exists_of_mem_mapM h hmem
    obtain ⟨types', htypes, hok⟩ := Error.bind_eq_ok.mp hok
    cases hok
    exact ⟨(List.mem_filter.mp hc').1, (Schema.satisfies_iff htypes).mpr ht⟩
  · rintro ⟨hmem, ht⟩
    have hfilter : c ∈ typeConditions.filter (· != rawType) :=
      List.mem_filter.mpr ⟨hmem, bne_iff_ne.mpr hc⟩
    obtain ⟨pair, hpair, hok⟩ := Error.exists_mem_of_mapM h hfilter
    obtain ⟨types, htypes, hok⟩ := Error.bind_eq_ok.mp hok
    cases hok
    exact ⟨types, hpair, (Schema.satisfies_iff htypes).mp ht⟩

/-! ## Derived shapes -/

/-- The type sets of derived shapes: those of the object types of a field, and that of the raw type
alone. -/
def Schema.Derives (s : Schema) (rawType : Name) (typeConditions : List Name)
    (fieldTypes typeSet : NameSet) :
    Prop :=
  typeSet = {rawType} ∨ ∃ t ∈ fieldTypes, s.typeSetOf rawType typeConditions t = typeSet

namespace Schema.Derives

variable {s : Schema} {rawType : Name} {typeConditions : List Name} {fieldTypes typeSet : NameSet}

theorem rawType_mem (h : s.Derives rawType typeConditions fieldTypes typeSet) :
    rawType ∈ typeSet := by
  rcases h with rfl | ⟨t, -, rfl⟩
  · exact NameSet.mem_singleton.mpr rfl
  · exact mem_typeSetOf.mpr (.inl rfl)

theorem made (h : s.Derives rawType typeConditions fieldTypes typeSet) {c : Name}
    (hc : c ∈ typeSet) :
    c = rawType ∨ c ∈ typeConditions := by
  rcases h with rfl | ⟨t, -, rfl⟩
  · exact .inl (NameSet.mem_singleton.mp hc)
  · exact (mem_typeSetOf.mp hc).imp_right And.left

/-- A type set other than that of the raw type is there because of an object type, which satisfies
it. -/
theorem satisfied (h : s.Derives rawType typeConditions fieldTypes typeSet)
    (ht : s.possibleTypes rawType = .ok fieldTypes) (hne : typeSet ≠ {rawType}) :
    ∃ t ∈ fieldTypes, ∀ c ∈ typeSet, s.satisfies t c = true := by
  obtain ⟨t, htf, rfl⟩ := h.resolve_left hne
  refine ⟨t, htf, fun c hc ↦ ?_⟩
  rcases mem_typeSetOf.mp hc with rfl | ⟨-, hsat⟩
  · exact (satisfies_iff ht).mpr htf
  · exact hsat

end Schema.Derives

/-- **The derived shapes** are the type sets of the object types, and that of the raw type alone. -/
theorem Schema.mem_derivedShapes {s : Schema} {rawType : Name} {typeConditions : List Name}
    {fieldTypes : NameSet} {shapes : List Shape} (ht : s.possibleTypes rawType = .ok fieldTypes)
    (h : s.derivedShapes rawType typeConditions = .ok shapes) :
    (shapes.map Shape.typeSet).Nodup ∧ ∀ shape, shape ∈ shapes ↔
      s.Derives rawType typeConditions fieldTypes shape.typeSet ∧
      shape.possibleTypes = if shape.typeSet = {rawType} then fieldTypes else
        fieldTypes.filter fun t ↦ s.typeSetOf rawType typeConditions t = shape.typeSet := by
  rw [derivedShapes, ht] at h
  obtain ⟨_, ⟨⟩, h⟩ := Error.bind_eq_ok.mp h
  obtain ⟨conditions, hconditions, h⟩ := Error.bind_eq_ok.mp h
  cases h
  rw [funext (satisfied_eq hconditions)]
  have hsize : ∀ typeSet, s.Derives rawType typeConditions fieldTypes typeSet →
      (typeSet.size = 1 ↔ typeSet = {rawType}) := fun typeSet hmem ↦
    NameSet.size_eq_one_iff hmem.rawType_mem
  refine ⟨nodup_sortShapes ?_, fun shape ↦ ?_⟩
  · rw [List.map_map]
    exact (List.map_id _).symm ▸ nodup_eraseDups _
  · rw [mem_sortShapes, List.mem_map]
    simp only [List.mem_eraseDups, List.mem_append, List.mem_map, List.mem_singleton,
      NameSet.mem_toList, or_comm (b := _ = ({rawType} : NameSet))]
    constructor
    · rintro ⟨typeSet, hmem, rfl⟩
      exact ⟨hmem, by simp only [hsize typeSet hmem]⟩
    · rintro ⟨hmem, htypes⟩
      refine ⟨shape.typeSet, hmem, ?_⟩
      simp only [hsize shape.typeSet hmem, ← htypes]

/-- A type set has a derived shape if it is one of those derived. -/
theorem Schema.exists_mem_derivedShapes {s : Schema} {rawType : Name} {typeConditions : List Name}
    {fieldTypes : NameSet} {shapes : List Shape} (ht : s.possibleTypes rawType = .ok fieldTypes)
    (h : s.derivedShapes rawType typeConditions = .ok shapes) {typeSet : NameSet} :
    (∃ a ∈ shapes, a.typeSet = typeSet) ↔ s.Derives rawType typeConditions fieldTypes typeSet := by
  have hmem := (mem_derivedShapes ht h).2
  constructor
  · rintro ⟨a, ha, rfl⟩
    exact ((hmem a).mp ha).1
  · intro hd
    exact ⟨⟨typeSet, if typeSet = {rawType} then fieldTypes else
      fieldTypes.filter fun t ↦ s.typeSetOf rawType typeConditions t = typeSet⟩,
      (hmem _).mpr ⟨hd, rfl⟩, rfl⟩

/-! ## All shapes of a field -/

/-- What is known of the shapes of a field beneath which `typeConditions` are met. -/
structure Shaped (schema : Schema) (rawType : Name) (typeConditions : List Name)
    (fieldTypes : NameSet) (shapes : List Shape) : Prop where
  /-- The object types are those of the type of the field. -/
  fieldTypes_eq : schema.possibleTypes rawType = .ok fieldTypes
  /-- There is the shape of this type alone, with all object types. -/
  base_mem : ⟨{rawType}, fieldTypes⟩ ∈ shapes
  /-- Every shape has this type. -/
  rawType_mem : ∀ a ∈ shapes, rawType ∈ a.typeSet
  /-- All else in a type set are type conditions that are met. -/
  made : ∀ a ∈ shapes, ∀ c ∈ a.typeSet, c = rawType ∨ c ∈ typeConditions
  /-- An object type belongs to the other shape whose type set is its own. -/
  mem_possibleTypes : ∀ a ∈ shapes, a.typeSet ≠ {rawType} → ∀ t,
    t ∈ a.possibleTypes ↔ t ∈ fieldTypes ∧ schema.typeSetOf rawType typeConditions t = a.typeSet
  /-- Every object type has a shape with its type set. -/
  exists_shape :
    ∀ t ∈ fieldTypes, ∃ a ∈ shapes, a.typeSet = schema.typeSetOf rawType typeConditions t
  /-- Every other shape has a type set that some object type satisfies. -/
  satisfied : ∀ a ∈ shapes, a.typeSet ≠ {rawType} →
    ∃ t ∈ fieldTypes, ∀ c ∈ a.typeSet, schema.satisfies t c = true
  /-- The shapes come in the order of their type sets. -/
  sorted : shapes.Pairwise fun a b ↦ a.typeSet.Before b.typeSet

namespace Shaped

variable {schema : Schema} {rawType : Name} {typeConditions : List Name} {fieldTypes : NameSet}
  {shapes : List Shape}

theorem satisfies_rawType (h : Shaped schema rawType typeConditions fieldTypes shapes) {t : Name}
    (ht : t ∈ fieldTypes) : schema.satisfies t rawType = true :=
  (Schema.satisfies_iff h.fieldTypes_eq).mpr ht

theorem nodup (h : Shaped schema rawType typeConditions fieldTypes shapes) :
    (shapes.map Shape.typeSet).Nodup := by
  refine List.pairwise_map.mpr (h.sorted.imp fun hab heq ↦ ?_)
  exact NameSet.Before.irrefl _ (heq ▸ hab)

/-- A shape is told by its type set. -/
theorem eq_of_typeSet_eq (h : Shaped schema rawType typeConditions fieldTypes shapes) {a b : Shape}
    (ha : a ∈ shapes) (hb : b ∈ shapes) (heq : a.typeSet = b.typeSet) : a = b :=
  List.inj_on_of_nodup_map h.nodup ha hb heq

/-- The shape of the raw type has all object types of the field. -/
theorem possibleTypes_base (h : Shaped schema rawType typeConditions fieldTypes shapes) {a : Shape}
    (ha : a ∈ shapes) (hbase : a.typeSet = {rawType}) : a.possibleTypes = fieldTypes := by
  rw [h.eq_of_typeSet_eq ha h.base_mem hbase]

/-- The derived shapes, with further type sets that have no object types of their own. -/
theorem of_derived {derived : List Shape} {declared : List NameSet}
    (ht : schema.possibleTypes rawType = .ok fieldTypes)
    (h : schema.derivedShapes rawType typeConditions = .ok derived) (hnodup : declared.Nodup)
    (hnew : ∀ s ∈ declared, ∀ a ∈ derived, a.typeSet ≠ s)
    (hmade : ∀ s ∈ declared, rawType ∈ s ∧ ∀ c ∈ s, c = rawType ∨ c ∈ typeConditions)
    (hsat : ∀ s ∈ declared, ∃ t ∈ fieldTypes, ∀ c ∈ s, schema.satisfies t c = true) :
    Shaped schema rawType typeConditions fieldTypes
      (sortShapes (derived ++ declared.map fun s ↦ ⟨s, ∅⟩)) := by
  obtain ⟨hderived, hmem⟩ := Schema.mem_derivedShapes ht h
  have hcases : ∀ {P : Shape → Prop}, (∀ a ∈ derived, P a) → (∀ s ∈ declared, P ⟨s, ∅⟩) →
      ∀ a ∈ sortShapes (derived ++ declared.map fun s ↦ ⟨s, ∅⟩), P a := by
    intro P hd hd' a ha
    rcases List.mem_append.mp (mem_sortShapes.mp ha) with ha | ha
    · exact hd a ha
    · obtain ⟨s, hs, rfl⟩ := List.mem_map.mp ha
      exact hd' s hs
  have hdue : ∀ s, schema.Derives rawType typeConditions fieldTypes s →
      ∃ a ∈ derived, a.typeSet = s := fun _ ↦ (Schema.exists_mem_derivedShapes ht h).mpr
  exact
    { fieldTypes_eq := ht
      base_mem := mem_sortShapes.mpr (List.mem_append_left _ ((hmem _).mpr ⟨.inl rfl, by simp⟩))
      rawType_mem := hcases (fun a ha ↦ ((hmem a).mp ha).1.rawType_mem) fun s hs ↦ (hmade s hs).1
      made := hcases (fun a ha c hc ↦ ((hmem a).mp ha).1.made hc) fun s hs ↦ (hmade s hs).2
      mem_possibleTypes := hcases
        (fun a ha hne t ↦ by
          rw [((hmem a).mp ha).2, if_neg hne, NameSet.mem_filter, decide_eq_true_iff])
        fun s hs hne t ↦ by
          refine iff_of_false NameSet.not_mem_empty ?_
          rintro ⟨htf, hlabel⟩
          obtain ⟨a, ha, heq⟩ := hdue s (.inr ⟨t, htf, hlabel⟩)
          exact hnew s hs a ha heq
      exists_shape := fun t htf ↦ by
        obtain ⟨a, ha, heq⟩ := hdue _ (.inr ⟨t, htf, rfl⟩)
        exact ⟨a, mem_sortShapes.mpr (List.mem_append_left _ ha), heq⟩
      satisfied :=
        hcases (fun a ha hne ↦ ((hmem a).mp ha).1.satisfied ht hne) fun s hs _ ↦ hsat s hs
      sorted := by
        refine pairwise_sortShapes ?_
        rw [List.map_append, List.map_map, List.nodup_append]
        refine ⟨hderived, (List.map_id declared).symm ▸ hnodup, fun a ha b hb ↦ ?_⟩
        obtain ⟨x, hx, rfl⟩ := List.mem_map.mp ha
        obtain ⟨y, hy, rfl⟩ := List.mem_map.mp hb
        exact hnew y hy x hx }

/-- **Of the shapes with an object type, that of its type set is the largest.** -/
theorem exists_largest (h : Shaped schema rawType typeConditions fieldTypes shapes) {t : Name}
    (ht : t ∈ fieldTypes) :
    ∃ a ∈ shapes, a.typeSet = schema.typeSetOf rawType typeConditions t ∧ t ∈ a.possibleTypes ∧
      ∀ b ∈ shapes, t ∈ b.possibleTypes → b = a ∨ b.typeSet ⊂ a.typeSet := by
  obtain ⟨a, ha, hlabel⟩ := h.exists_shape t ht
  have hmem : t ∈ a.possibleTypes := by
    by_cases hbase : a.typeSet = {rawType}
    · exact h.possibleTypes_base ha hbase ▸ ht
    · exact (h.mem_possibleTypes a ha hbase t).mpr ⟨ht, hlabel.symm⟩
  refine ⟨a, ha, hlabel, hmem, fun b hb htb ↦ ?_⟩
  by_cases heq : b.typeSet = a.typeSet
  · exact .inl (h.eq_of_typeSet_eq hb ha heq)
  · have hbase : b.typeSet = {rawType} := Classical.byContradiction fun hne ↦
      heq (((h.mem_possibleTypes b hb hne t).mp htb).2 ▸ hlabel.symm)
    refine .inr (NameSet.ssubset_iff_subset_ne.mpr ⟨?_, heq⟩)
    rw [hbase]
    exact NameSet.singleton_subset.mpr (h.rawType_mem a ha)

end Shaped
end ResponseModels
