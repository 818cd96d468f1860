import ResponseModels.Error

/-!
# What can be reached

Names that refer to one another form a table: each name with the names it refers to. `closure`
collects what can be reached from some names, depth first. It goes on from names `seen` before, so
that several starting points can share one traversal.

Every name that is reached is looked up once. The table has only so much that is not seen yet
(`unseen`), and seeing an entry pays for all that it refers to (`unseen_add_lt`). This is why the
traversal ends, whatever circles the table holds.
-/

set_option autoImplicit false

namespace ResponseModels

/-- How much of a table is not seen yet: its entries and what they refer to. -/
def unseen : List (Name × List Name) → List Name → Nat
  | [], _ => 0
  | e :: table, seen => (if e.1 ∈ seen then 0 else e.2.length + 1) + unseen table seen

private theorem unseen_le (table : List (Name × List Name)) (seen : List Name) (n : Name) :
    unseen table (seen ++ [n]) ≤ unseen table seen := by
  induction table with
  | nil => exact Nat.le_refl _
  | cons e rest ih =>
    rw [unseen, unseen]
    by_cases he : e.1 ∈ seen
    · rw [if_pos he, if_pos (List.mem_append_left _ he)]
      omega
    · rw [if_neg he]
      split <;> omega

/-- Seeing an entry pays for all that it refers to. -/
theorem unseen_add_lt {table : List (Name × List Name)} {seen : List Name} {n : Name}
    {next : List Name} (h : table.lookup n = some next) (hn : n ∉ seen) :
    unseen table (seen ++ [n]) + next.length < unseen table seen := by
  induction table with
  | nil => cases h
  | cons e rest ih =>
    obtain ⟨k, v⟩ := e
    have hle := unseen_le rest seen n
    rw [unseen, unseen]
    by_cases hk : n = k
    · subst hk
      rw [List.lookup_cons_self] at h
      cases h
      rw [if_neg hn, if_pos (List.mem_append_right _ (List.mem_singleton_self n))]
      show 0 + unseen rest (seen ++ [n]) + next.length < next.length + 1 + unseen rest seen
      omega
    · rw [List.lookup_cons, beq_eq_false_iff_ne.mpr hk] at h
      have hlt := ih h
      by_cases hs : k ∈ seen
      · rw [if_pos hs, if_pos (List.mem_append_left _ hs)]
        omega
      · rw [if_neg hs]
        split <;> omega

set_option linter.unusedVariables false in
/-- All names that can be reached from the pending ones, after those seen before, in the order in
which they are reached. A name that is not in the table is an error. -/
def closure (table : List (Name × List Name)) (missing : Name → Error) (pending seen : List Name) :
    Except Error (List Name) :=
  match pending with
  | [] => .ok seen
  | n :: rest =>
    if hn : n ∈ seen then closure table missing rest seen
    else
      match h : table.lookup n with
      | none => .error (missing n)
      | some next => closure table missing (next ++ rest) (seen ++ [n])
termination_by unseen table seen + pending.length
decreasing_by
  · rw [List.length_cons]
    omega
  · have hlt := unseen_add_lt h hn
    rw [List.length_append, List.length_cons]
    omega

end ResponseModels
