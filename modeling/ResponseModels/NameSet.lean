import ResponseModels.Ascending

/-!
# Names and sets of names

A `NameSet` is a finite set of names, kept in ascending order. Type sets, possible types and the
sets of fragments an operation uses are all of this kind. Being in ascending order is part of the
type, so a set has one representation: `NameSet.ext` says that two sets with the same members are
equal, and equality of sets is decided by comparing lists.

Names are ordered by code point.
-/

set_option autoImplicit false

namespace ResponseModels

/-- The name of a type, field, fragment, variable or any other thing a document can name. -/
abbrev Name := String

/-- A finite set of names, in ascending order. -/
structure NameSet where
  /-- The members, each once. -/
  toList : List Name
  /-- The members ascend. -/
  ascending : Ascending.IsAscending toList

namespace NameSet

instance : DecidableEq NameSet := fun s t ↦
  decidable_of_iff (s.toList = t.toList)
    ⟨fun h ↦ by cases s; cases t; cases h; rfl, fun h ↦ h ▸ rfl⟩

instance : Membership Name NameSet where
  mem s n := n ∈ s.toList

instance (n : Name) (s : NameSet) : Decidable (n ∈ s) :=
  inferInstanceAs (Decidable (n ∈ s.toList))

@[simp] theorem mem_toList {n : Name} {s : NameSet} : n ∈ s.toList ↔ n ∈ s := Iff.rfl

/-- **Sets with the same members are equal.** -/
@[ext] theorem ext {s t : NameSet} (h : ∀ n, n ∈ s ↔ n ∈ t) : s = t := by
  cases s with
  | mk l hl =>
    cases t with
    | mk m hm =>
      have hlm : l = m := Ascending.ext hl hm h
      subst hlm
      rfl

/-- The number of members. -/
def size (s : NameSet) : Nat := s.toList.length

instance : EmptyCollection NameSet where
  emptyCollection := ⟨[], Ascending.isAscending_nil⟩

@[simp] theorem not_mem_empty {n : Name} : n ∉ (∅ : NameSet) := List.not_mem_nil

/-- The set of the names in a list. -/
def ofList (l : List Name) : NameSet :=
  ⟨Ascending.ofList l, Ascending.isAscending_ofList l⟩

@[simp] theorem mem_ofList {n : Name} {l : List Name} : n ∈ ofList l ↔ n ∈ l :=
  Ascending.mem_ofList

/-- The set with one more member. -/
def insert (n : Name) (s : NameSet) : NameSet :=
  ⟨Ascending.insert n s.toList, Ascending.isAscending_insert n s.ascending⟩

@[simp] theorem mem_insert {m n : Name} {s : NameSet} : m ∈ s.insert n ↔ m = n ∨ m ∈ s :=
  Ascending.mem_insert

instance : Singleton Name NameSet where
  singleton n := ⟨[n], by simp [Ascending.isAscending_cons]⟩

@[simp] theorem mem_singleton {m n : Name} : m ∈ ({n} : NameSet) ↔ m = n := List.mem_singleton

/-- The members that pass a test. -/
def filter (p : Name → Bool) (s : NameSet) : NameSet :=
  ⟨s.toList.filter p, List.Pairwise.filter p s.ascending⟩

@[simp] theorem mem_filter {p : Name → Bool} {n : Name} {s : NameSet} :
    n ∈ s.filter p ↔ n ∈ s ∧ p n = true :=
  List.mem_filter

instance : Union NameSet where
  union s t := s.toList.foldr insert t

@[simp] theorem mem_union {n : Name} {s t : NameSet} : n ∈ s ∪ t ↔ n ∈ s ∨ n ∈ t := by
  cases s with
  | mk l hl =>
    change n ∈ l.foldr insert t ↔ n ∈ l ∨ n ∈ t
    clear hl
    induction l with
    | nil => simp
    | cons a rest ih => simp [ih, or_assoc]

instance : HasSubset NameSet where
  Subset s t := ∀ n ∈ s.toList, n ∈ t

instance (s t : NameSet) : Decidable (s ⊆ t) :=
  inferInstanceAs (Decidable (∀ n ∈ s.toList, n ∈ t))

theorem subset_iff {s t : NameSet} : s ⊆ t ↔ ∀ n ∈ s, n ∈ t := Iff.rfl

/-- Whether there are no members. -/
def isEmpty (s : NameSet) : Bool := s.toList.isEmpty

/-- Sets are ordered by their members, lexicographically, a set that runs out first coming first. -/
instance : Ord NameSet where
  compare s t := compare s.toList t.toList

/-- The printed form of a set: its members in square brackets. -/
def text (s : NameSet) : String :=
  "[" ++ String.intercalate ", " s.toList ++ "]"

end NameSet
end ResponseModels
