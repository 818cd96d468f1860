import Mathlib.Data.List.Perm.Basic
import ResponseModels.Proofs.Library
import ResponseModels.Proofs.Sample

/-!
# The object types of composite types

The object types of all composite types are found together. A table starts with an empty row for
each composite type. Then the definitions are gone through in turn, and each may enter object types
in the rows of several types: an object type is entered at itself and at whatever it says it
implements, and a union has object types entered that it lists. An entry at a type that has no row
is lost.

Entering never adds or removes a row, and a row holds in the end what was entered at its type
(`lookup_foldl_enter`). So there is a row for each composite type
(`Schema.isSome_lookup_objectTable`), and an object type is in it if some definition has it entered
there (`Schema.mem_of_lookup_objectTable`). Nothing of this depends on the order in which the
definitions come.

**The possible types are exact** (`possibleTypes_iff_belongs`): a type has possible types if it is
composite, and they are the object types that belong to it (`Schema.Belongs`), in any order of the
definitions and whatever else a definition may name.
-/

set_option autoImplicit false

namespace ResponseModels
namespace Schema

/-! ## Entering -/

/-- What one entry does to a row. -/
theorem lookup_enter (table : List (Name × NameSet)) (entry : Name × Name) (n : Name) :
    (enter table entry).lookup n =
      (table.lookup n).map fun types ↦ if n = entry.1 then types.insert entry.2 else types := by
  induction table with
  | nil => rfl
  | cons row rest ih =>
    obtain ⟨key, types⟩ := row
    rw [enter, List.map_cons, ← enter]
    by_cases hkey : n = key
    · subst hkey
      split <;> simp_all
    · have hne : (n == key) = false := beq_false_of_ne hkey
      split <;> simp [List.lookup_cons, hne, ih]

/-- **A row holds what it held before and what was entered there.** -/
theorem lookup_foldl_enter {table : List (Name × NameSet)} {entries : List (Name × Name)} {n : Name}
    {types : NameSet} (h : (entries.foldl enter table).lookup n = some types) :
    ∃ before, table.lookup n = some before ∧ ∀ t, t ∈ types ↔ t ∈ before ∨ (n, t) ∈ entries := by
  -- Each entry leaves another table to the entries after it, so the table varies.
  induction entries generalizing table with
  | nil => exact ⟨types, h, fun t ↦ by simp⟩
  | cons entry rest ih =>
    obtain ⟨after, hafter, hmem⟩ := ih h
    rw [lookup_enter] at hafter
    obtain ⟨before, hbefore, rfl⟩ := Option.map_eq_some_iff.mp hafter
    refine ⟨before, hbefore, fun t ↦ ?_⟩
    obtain ⟨super, object⟩ := entry
    rw [hmem, List.mem_cons, Prod.mk.injEq]
    split
    · rw [NameSet.mem_insert]
      tauto
    · tauto

theorem isSome_lookup_foldl_enter {table : List (Name × NameSet)} {entries : List (Name × Name)}
    {n : Name} :
    ((entries.foldl enter table).lookup n).isSome = (table.lookup n).isSome := by
  induction entries generalizing table with
  | nil => rfl
  | cons entry rest ih => rw [List.foldl_cons, ih, lookup_enter, Option.isSome_map]

/-! ## The table -/

variable {s s' : Schema} {n t : Name} {types : NameSet}

theorem objectTable_eq (s : Schema) :
    s.objectTable = (s.types.flatMap s.memberships).foldl enter
      ((s.types.filter fun d ↦ s.isComposite d.name).map fun d ↦ (d.name, ∅)) :=
  List.foldl_flatMap.symm

theorem isComposite_eq_true_iff :
    s.isComposite n = true ↔ ∃ d, s.type? n = some d ∧ d.kind.isComposite = true := by
  rw [isComposite, Option.any_eq_true]

/-- The table has a row for each composite type. -/
theorem isSome_lookup_objectTable : (s.objectTable.lookup n).isSome = s.isComposite n := by
  rw [objectTable_eq, isSome_lookup_foldl_enter, Bool.eq_iff_iff, List.lookup_isSome_iff]
  simp only [List.mem_map, List.mem_filter, beq_iff_eq]
  constructor
  · rintro ⟨_, ⟨d, ⟨-, hcomposite⟩, rfl⟩, rfl⟩
    exact hcomposite
  · intro hcomposite
    obtain ⟨d, hd, -⟩ := isComposite_eq_true_iff.mp hcomposite
    obtain rfl : d.name = n := by simpa using List.find?_some hd
    exact ⟨_, ⟨d, ⟨List.mem_of_find?_eq_some hd, hcomposite⟩, rfl⟩, rfl⟩

theorem possibleTypes_eq_ok_iff :
    s.possibleTypes n = .ok types ↔ s.objectTable.lookup n = some types := by
  rw [possibleTypes]
  split
  · rename_i row hrow
    rw [hrow, Except.ok.injEq, Option.some.injEq]
  · rename_i hnone
    simp [hnone]

/-- A type has possible types if it is composite. -/
theorem exists_possibleTypes_iff :
    (∃ types, s.possibleTypes n = .ok types) ↔ s.isComposite n = true := by
  simp only [possibleTypes_eq_ok_iff, ← Option.isSome_iff_exists, isSome_lookup_objectTable]

/-- Where a definition has object types entered. -/
theorem mem_memberships {d : TypeDefinition} :
    (n, t) ∈ s.memberships d ↔ d.kind = .object ∧ t = d.name ∧ (n = d.name ∨ n ∈ d.interfaces) ∨
      d.kind = .union ∧ n = d.name ∧ t ∈ d.members ∧ s.isObject t = true := by
  rw [memberships]
  cases d.kind with
  | object =>
    simp only [reduceCtorEq, true_and, false_and, or_false, List.mem_map, List.mem_cons,
      Prod.mk.injEq]
    constructor
    · rintro ⟨super, hsuper, rfl, rfl⟩
      exact ⟨rfl, hsuper⟩
    · rintro ⟨rfl, hsuper⟩
      exact ⟨n, hsuper, rfl, rfl⟩
  | union =>
    simp only [reduceCtorEq, true_and, false_and, false_or, List.mem_map, List.mem_filter,
      Prod.mk.injEq]
    constructor
    · rintro ⟨member, hmember, rfl, rfl⟩
      exact ⟨rfl, hmember⟩
    · rintro ⟨rfl, hmember⟩
      exact ⟨t, hmember, rfl, rfl⟩
  | scalar | enum | interface | inputObject => simp

/-- **What a row of the table holds** was entered there by some definition. -/
theorem mem_of_lookup_objectTable (h : s.objectTable.lookup n = some types) :
    t ∈ types ↔ ∃ d ∈ s.types, (n, t) ∈ s.memberships d := by
  rw [objectTable_eq] at h
  obtain ⟨before, hbefore, hmem⟩ := lookup_foldl_enter h
  -- All rows start out empty.
  have hempty : before = ∅ := by
    obtain ⟨l₁, l₂, heq, -⟩ := List.lookup_eq_some_iff.mp hbefore
    have hrow : (n, before) ∈ l₁ ++ (n, before) :: l₂ := List.mem_append_right l₁ List.mem_cons_self
    obtain ⟨d, -, hd⟩ := List.mem_map.mp (heq ▸ hrow)
    exact (congrArg Prod.snd hd).symm
  rw [hmem, hempty, List.mem_flatMap]
  exact or_iff_right NameSet.not_mem_empty

/-! ## Schemas whose types have different names -/

section

variable (hnames : (s.types.map TypeDefinition.name).Nodup)
include hnames

theorem type?_eq_some_iff {d : TypeDefinition} : s.type? n = some d ↔ d ∈ s.types ∧ d.name = n := by
  constructor
  · intro hd
    exact ⟨List.mem_of_find?_eq_some hd, by simpa using List.find?_some hd⟩
  · rintro ⟨hd, rfl⟩
    exact find?_of_nodup hnames hd

theorem isObject_eq_true_iff :
    s.isObject t = true ↔ ∃ d ∈ s.types, d.name = t ∧ d.kind = .object := by
  simp only [isObject, Option.any_eq_true, decide_eq_true_eq, type?_eq_some_iff hnames, and_assoc]

end

/-- An object type belongs to a type that it is, that it says it implements, or that lists it. -/
def Belongs (s : Schema) (d : TypeDefinition) (n : Name) : Prop :=
  d.name = n ∨ n ∈ d.interfaces ∨ ∃ u ∈ s.types, u.name = n ∧ u.kind = .union ∧ d.name ∈ u.members

instance (s : Schema) (d : TypeDefinition) (n : Name) : Decidable (s.Belongs d n) :=
  inferInstanceAs (Decidable (_ ∨ _ ∨ ∃ u ∈ s.types, _))

/-- **The possible types of a type are the object types that belong to it.** -/
theorem mem_possibleTypes_iff (hnames : (s.types.map TypeDefinition.name).Nodup)
    (h : s.possibleTypes n = .ok types) :
    t ∈ types ↔ ∃ d ∈ s.types, d.name = t ∧ d.kind = .object ∧ s.Belongs d n := by
  simp only [mem_of_lookup_objectTable (possibleTypes_eq_ok_iff.mp h), mem_memberships,
    isObject_eq_true_iff hnames, Belongs]
  constructor
  · rintro ⟨d, hd, ⟨hkind, rfl, hsuper⟩ | ⟨hkind, rfl, hlisted, e, he, rfl, hobject⟩⟩
    · exact ⟨d, hd, rfl, hkind, hsuper.imp Eq.symm .inl⟩
    · exact ⟨e, he, rfl, hobject, .inr (.inr ⟨d, hd, rfl, hkind, hlisted⟩)⟩
  · rintro ⟨d, hd, rfl, hkind, rfl | hsuper | ⟨u, hu, rfl, hunion, hlisted⟩⟩
    · exact ⟨d, hd, .inl ⟨hkind, rfl, .inl rfl⟩⟩
    · exact ⟨d, hd, .inl ⟨hkind, rfl, .inr hsuper⟩⟩
    · exact ⟨u, hu, .inr ⟨hunion, rfl, hlisted, d, hd, rfl, hkind⟩⟩

/-! ## The order of definitions -/

section

variable (htypes : ∀ d, d ∈ s.types ↔ d ∈ s'.types) (hfind : ∀ n, s.type? n = s'.type? n)
include htypes hfind

theorem lookup_objectTable_of_same (h : s.objectTable.lookup n = some types) :
    s'.objectTable.lookup n = some types := by
  have hrow : (s'.objectTable.lookup n).isSome = true := by
    rw [isSome_lookup_objectTable, isComposite, ← hfind, ← isComposite, ← isSome_lookup_objectTable,
      h, Option.isSome_some]
  obtain ⟨types', h'⟩ := Option.isSome_iff_exists.mp hrow
  have hobject : s.isObject = s'.isObject := funext fun m ↦ by rw [isObject, isObject, hfind]
  have hsame : types = types' := by
    ext t
    simp only [mem_of_lookup_objectTable h, mem_of_lookup_objectTable h', htypes,
      memberships, hobject]
  rw [h', hsame]

/-- **The table depends on which definitions there are**, as far as it is looked up, and not on
their order. -/
theorem lookup_objectTable_congr (n : Name) : s.objectTable.lookup n = s'.objectTable.lookup n := by
  ext types
  constructor
  · exact lookup_objectTable_of_same htypes hfind
  · exact lookup_objectTable_of_same (fun d ↦ (htypes d).symm) fun m ↦ (hfind m).symm

end

end Schema

/-- **The possible types of a schema are exact, and do not depend on the order of its definitions.**
The types of a schema have different names; apart from that a definition may name types that do not
exist or are of another kind. Then the object, interface and union types have possible types and no
others. They are the object types that belong to the type, all of them types of the schema. If the
definitions come in another order, the same is found for every type. -/
theorem possibleTypes_iff_belongs (s : Schema) (hnames : (s.types.map TypeDefinition.name).Nodup) :
    (∀ n, (∃ types, s.possibleTypes n = .ok types) ↔
      ∃ d ∈ s.types, d.name = n ∧ (d.kind = .object ∨ d.kind = .interface ∨ d.kind = .union)) ∧
    (∀ n types, s.possibleTypes n = .ok types →
      (∀ d ∈ s.types, d.kind = .object → (d.name ∈ types ↔ s.Belongs d n)) ∧
      ∀ t ∈ types, ∃ d ∈ s.types, d.name = t ∧ d.kind = .object) ∧
    ∀ s' : Schema, s.definitions.Perm s'.definitions →
      ∀ n, s'.objectTable.lookup n = s.objectTable.lookup n ∧
      s'.possibleTypes n = s.possibleTypes n := by
  refine ⟨fun n ↦ ?_, fun n types h ↦ ⟨fun d hd hkind ↦ ?_, fun t ht ↦ ?_⟩, fun s' hperm n ↦ ?_⟩
  · have hkind : ∀ k : TypeKind, k.isComposite = true ↔ k = .object ∨ k = .interface ∨
        k = .union := by
      intro k
      cases k <;> simp [TypeKind.isComposite]
    simp only [Schema.exists_possibleTypes_iff, Schema.isComposite_eq_true_iff,
      Schema.type?_eq_some_iff hnames, hkind, and_assoc]
  · rw [Schema.mem_possibleTypes_iff hnames h]
    constructor
    · rintro ⟨e, he, hname, -, hbelongs⟩
      rwa [← List.inj_on_of_nodup_map hnames he hd hname]
    · exact fun hbelongs ↦ ⟨d, hd, rfl, hkind, hbelongs⟩
  · obtain ⟨d, hd, hname, hkind, -⟩ := (Schema.mem_possibleTypes_iff hnames h).mp ht
    exact ⟨d, hd, hname, hkind⟩
  · have htypes : s.types.Perm s'.types := hperm.append_left _
    have hlookup :=
      Schema.lookup_objectTable_congr (fun d ↦ htypes.mem_iff) (find?_of_perm hnames htypes) n
    exact ⟨hlookup.symm, by rw [Schema.possibleTypes, Schema.possibleTypes, hlookup]⟩

open Sample in
/-- A dog says that it implements a cat and a cat that it implements a union, so they belong there.
The union has neither the interface nor the missing type that it lists. -/
theorem possibleTypes_iff_belongs_misfits :
    (misfits.types.map TypeDefinition.name).Nodup ∧
      misfits.definitions.Perm misfitsReversed.definitions ∧
      ∃ cats pets, misfits.possibleTypes "Cat" = .ok cats ∧ "Dog" ∈ cats ∧
      misfits.possibleTypes "Pet" = .ok pets ∧ "Dog" ∈ pets ∧
        "Cat" ∈ pets ∧ "Animal" ∉ pets ∧ "Ghost" ∉ pets ∧
        misfitsReversed.possibleTypes "Pet" = .ok pets ∧
        ¬ ∃ types, misfits.possibleTypes "Ghost" = .ok types := by
  have hnames : (misfits.types.map TypeDefinition.name).Nodup := by decide
  have hperm : misfits.definitions.Perm misfitsReversed.definitions := (List.reverse_perm _).symm
  have hdog : strayDog ∈ misfits.types := by simp [Schema.types, misfits]
  have hcat : strayCat ∈ misfits.types := by simp [Schema.types, misfits]
  obtain ⟨hdefined, hexact, horder⟩ := possibleTypes_iff_belongs misfits hnames
  obtain ⟨cats, hcats⟩ := (hdefined "Cat").mpr (by decide)
  obtain ⟨pets, hpets⟩ := (hdefined "Pet").mpr (by decide)
  obtain ⟨hpetsMem, hpetsObject⟩ := hexact "Pet" pets hpets
  refine ⟨hnames, hperm, cats, pets, hcats, ?_, hpets, ?_, ?_, ?_, ?_, ?_, ?_⟩
  · exact ((hexact "Cat" cats hcats).1 strayDog hdog rfl).mpr (by decide)
  · exact (hpetsMem strayDog hdog rfl).mpr (by decide)
  · exact (hpetsMem strayCat hcat rfl).mpr (by decide)
  · exact fun h ↦ absurd (hpetsObject "Animal" h) (by decide)
  · exact fun h ↦ absurd (hpetsObject "Ghost" h) (by decide)
  · exact (horder misfitsReversed hperm "Pet").2.trans hpets
  · rw [hdefined]
    decide

end ResponseModels
