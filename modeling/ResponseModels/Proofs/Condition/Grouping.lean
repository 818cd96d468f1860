import ResponseModels.Proofs.Condition.Canonical

/-!
# Joining conditions in any way

Conditions are joined two at a time, by `and` along a way through fragments and by `or` where
several ways lead to a field. In what order and in what groups that happens depends on the document.
A `Grouping` is any such way of joining conditions, and what comes of it is determined by the set of
the conditions alone (`combine_eq_simplify`): it is what simplifying the junction of the set gives.

Each step simplifies, so a step may find its operands absorbed, decided or no longer wrapped in a
junction. The invariant that carries the induction is that a group, simplified once more, is its
conditions reduced at once (`Grouping.simplify_combine`).
-/

set_option autoImplicit false

namespace ResponseModels

namespace Junction

open Condition

/-- The combinator that joins two conditions in this way. -/
def combinator : Junction → Condition → Condition → Condition
  | .all => Condition.and
  | .any => Condition.or

theorem simplify_ofList (j : Junction) (l : List Condition) :
    (Condition.junction j (Ascending.ofList l)).simplify = j.reduce (l.map simplify) := by
  rw [simplify, simplifyEach_eq_map]
  exact reduce_congr fun c ↦ by simp

theorem combinator_eq_reduce (j : Junction) (a b : Condition) :
    j.combinator a b = j.reduce [a.simplify, b.simplify] := by
  cases j <;> exact simplify_ofList _ [a, b]

/-- Two groups can be reduced one by one, before they are joined. -/
theorem reduce_pair {j : Junction} {l m : List Condition} (hl : ∀ c ∈ l, c.Canonical)
    (hm : ∀ c ∈ m, c.Canonical) :
    j.reduce [j.reduce l, j.reduce m] = j.reduce (l ++ m) := by
  have hright : ∀ c ∈ [j.reduce m], c.Canonical := by
    simpa using canonical_reduce hm
  calc j.reduce [j.reduce l, j.reduce m]
      = j.reduce (l ++ [j.reduce m]) := reduce_reduce_append hl hright
    _ = j.reduce (j.reduce m :: l) := reduce_congr fun c ↦ by simp [or_comm]
    _ = j.reduce (m ++ l) := reduce_reduce_append hm hl
    _ = j.reduce (l ++ m) := reduce_congr fun c ↦ by simp [or_comm]

end Junction

namespace Condition

theorem canonical_of_mem_map_simplify {l : List Condition} : ∀ c ∈ l.map simplify, c.Canonical := by
  intro c hc
  obtain ⟨x, -, rfl⟩ := List.mem_map.mp hc
  exact canonical_simplify x

/-- A way of joining conditions two at a time. -/
inductive Grouping where
  | one (c : Condition)
  | both (left right : Grouping)

namespace Grouping

/-- The conditions that are joined, each as often as it is used. -/
def conditions : Grouping → List Condition
  | .one c => [c]
  | .both left right => left.conditions ++ right.conditions

/-- What comes of it if `op` joins two conditions. -/
def combine (op : Condition → Condition → Condition) : Grouping → Condition
  | .one c => c
  | .both left right => op (left.combine op) (right.combine op)

/-- All of the listed conditions and no others are joined, each of them once or more. -/
structure Joins (g : Grouping) (l : List Condition) : Prop where
  /-- Something is joined, as it is if two or more are listed. A single condition would be left as
  it is. -/
  two : 2 ≤ g.conditions.length
  /-- What is joined is what is listed. -/
  same : ∀ c, c ∈ g.conditions ↔ c ∈ l

/-- A group, simplified, is its conditions reduced at once. -/
theorem simplify_combine (j : Junction) (g : Grouping) :
    (g.combine j.combinator).simplify = j.reduce (g.conditions.map simplify) := by
  induction g with
  | one c => exact (Junction.reduce_singleton (canonical_simplify c)).symm
  | both left right ihleft ihright =>
    rw [combine, Junction.combinator_eq_reduce, ihleft, ihright, conditions, List.map_append,
      Junction.reduce_pair canonical_of_mem_map_simplify canonical_of_mem_map_simplify]
    refine (Junction.canonical_reduce fun c hc ↦ ?_).simplify_eq
    rw [← List.map_append] at hc
    exact canonical_of_mem_map_simplify c hc

/-- What was joined at all needs no simplifying any more. -/
theorem canonical_combine {j : Junction} {g : Grouping} (h : 2 ≤ g.conditions.length) :
    (g.combine j.combinator).Canonical := by
  cases g with
  | one c => exact absurd h (by simp [conditions])
  | both left right =>
    cases j with
    | all => exact canonical_and _ _
    | any => exact canonical_or _ _

theorem Joins.combine_eq {g : Grouping} {l : List Condition} (h : g.Joins l) (j : Junction) :
    g.combine j.combinator = (junction j (Ascending.ofList l)).simplify := by
  rw [← (canonical_combine h.two).simplify_eq, simplify_combine, Junction.simplify_ofList]
  exact Junction.reduce_congr fun c ↦ by simp [h.same]

end Grouping

/-! ## The laws of joining -/

section Laws

variable (j : Junction) (a b c : Condition)

theorem combinator_assoc :
    j.combinator (j.combinator a b) c = j.combinator a (j.combinator b c) := by
  have hleft : (Grouping.both (.both (.one a) (.one b)) (.one c)).Joins [a, b, c] :=
    ⟨by simp [Grouping.conditions], fun x ↦ by simp [Grouping.conditions]⟩
  have hright : (Grouping.both (.one a) (.both (.one b) (.one c))).Joins [a, b, c] :=
    ⟨by simp [Grouping.conditions], fun x ↦ by simp [Grouping.conditions]⟩
  exact (hleft.combine_eq j).trans (hright.combine_eq j).symm

theorem combinator_comm : j.combinator a b = j.combinator b a := by
  rw [Junction.combinator_eq_reduce, Junction.combinator_eq_reduce]
  exact Junction.reduce_congr fun x ↦ by simp [or_comm]

theorem combinator_self : j.combinator c c = c.simplify := by
  have hset : j.reduce [c.simplify, c.simplify] = j.reduce [c.simplify] :=
    Junction.reduce_congr fun x ↦ by simp
  rw [Junction.combinator_eq_reduce, hset, Junction.reduce_singleton (canonical_simplify c)]

end Laws

/-- **What comes of joining conditions depends on the set of them alone.** However they are ordered
and grouped and however often each is used, joining them by `and` gives what simplifying the
conjunction of the set gives, and joining them by `or` what simplifying the disjunction gives. So
both are associative and commutative, and to join a condition with itself is to simplify it. -/
theorem combine_eq_simplify :
    (∀ (l : List Condition) (g : Grouping), g.Joins l →
      g.combine and = (allOf l).simplify ∧ g.combine or = (anyOf l).simplify) ∧
    (∀ a b c : Condition, (a.and b).and c = a.and (b.and c) ∧ (a.or b).or c = a.or (b.or c)) ∧
    (∀ a b : Condition, a.and b = b.and a ∧ a.or b = b.or a) ∧
    ∀ c : Condition, c.and c = c.simplify ∧ c.or c = c.simplify :=
  ⟨fun _ _ h ↦ ⟨h.combine_eq .all, h.combine_eq .any⟩,
    fun a b c ↦ ⟨combinator_assoc .all a b c, combinator_assoc .any a b c⟩,
    fun a b ↦ ⟨combinator_comm .all a b, combinator_comm .any a b⟩,
    fun c ↦ ⟨combinator_self .all c, combinator_self .any c⟩⟩

/-- A group of three conditions, one of them used twice and one a disjunction that the others
absorb. -/
def sampleGrouping : Grouping :=
  .both (.both (.one (anyOf [ofVariable "b", ofVariable "a"])) (.one (ofVariable "b")))
    (.both (.one (ofVariable "a")) (.one (ofVariable "b")))

theorem combine_eq_simplify_absorbed :
    sampleGrouping.Joins [ofVariable "a", ofVariable "b", anyOf [ofVariable "a", ofVariable "b"]] ∧
    sampleGrouping.combine and =
      (allOf [ofVariable "a", ofVariable "b", anyOf [ofVariable "a", ofVariable "b"]]).simplify ∧
    sampleGrouping.combine and = .junction .all [ofVariable "a", ofVariable "b"] ∧
    sampleGrouping.combine or = .junction .any [ofVariable "a", ofVariable "b"] := by
  have hjoins :
      sampleGrouping.Joins [ofVariable "a", ofVariable "b",
        anyOf [ofVariable "a", ofVariable "b"]] := by
    have hset : anyOf [ofVariable "b", ofVariable "a"] =
        anyOf [ofVariable "a", ofVariable "b"] := by decide
    refine ⟨by decide, fun c ↦ ?_⟩
    simp only [sampleGrouping, Grouping.conditions, hset, List.cons_append, List.nil_append,
      List.mem_cons, List.not_mem_nil]
    grind
  obtain ⟨hand, hor⟩ := combine_eq_simplify.1 _ _ hjoins
  exact ⟨hjoins, hand, by rw [hand]; decide, by rw [hor]; decide⟩

end Condition
end ResponseModels
