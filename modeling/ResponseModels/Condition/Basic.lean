import ResponseModels.Ascending
import ResponseModels.NameSet

/-!
# Conditions

A condition says for which values of the boolean variables a selection is included. It is built from
constants, literals (a variable or its inversion) and junctions: the conjunction or the disjunction
of any number of operands. Negation is no constructor, because it can always be pushed down to the
literals (`Condition.negated`).

The operands of a junction are meant as a set. They are kept as a list, and `Condition.allOf` and
`Condition.anyOf` build junctions whose operands ascend. The order is the one below: constants
first, then literals by name, then conjunctions, then disjunctions, junctions of one kind being
compared operand by operand. It is a lawful order (the instances at the end), so an ascending list
of conditions is determined by its members.

`Condition.eval` gives the meaning of a condition under an assignment of the variables.
-/

set_option autoImplicit false

namespace ResponseModels

/-- The two ways of joining conditions. -/
inductive Junction where
  /-- Every operand holds. -/
  | all
  /-- Some operand holds. -/
  | any
  deriving DecidableEq

/-- When a selection is included. -/
inductive Condition where
  | always
  | never
  /-- The value of a boolean variable, negated when `inverted`. -/
  | literal (name : Name) (inverted : Bool)
  | junction (kind : Junction) (operands : List Condition)

namespace Condition

/-- The condition that a variable is true. -/
def ofVariable (name : Name) : Condition := .literal name false

/-- Selections are included by default. -/
instance : Inhabited Condition := ⟨.always⟩

/-! ## Meaning -/

mutual

/-- Whether a condition holds when the variables have the given values. The conjunction of nothing
holds, the disjunction of nothing does not. -/
def eval (v : Name → Bool) : Condition → Bool
  | .always => true
  | .never => false
  | .literal name inverted => v name != inverted
  | .junction .all operands => evalAll v operands
  | .junction .any operands => evalAny v operands

/-- Whether all the conditions hold. -/
def evalAll (v : Name → Bool) : List Condition → Bool
  | [] => true
  | c :: rest => c.eval v && evalAll v rest

/-- Whether one of the conditions holds. -/
def evalAny (v : Name → Bool) : List Condition → Bool
  | [] => false
  | c :: rest => c.eval v || evalAny v rest

end

theorem evalAll_eq_all (v : Name → Bool) (l : List Condition) : evalAll v l = l.all (eval v) := by
  induction l with
  | nil => rfl
  | cons c rest ih => rw [evalAll, ih, List.all_cons]

theorem evalAny_eq_any (v : Name → Bool) (l : List Condition) : evalAny v l = l.any (eval v) := by
  induction l with
  | nil => rfl
  | cons c rest ih => rw [evalAny, ih, List.any_cons]

/-! ## Induction -/

mutual

/-- Induction on conditions: to prove something of a junction, it may be assumed of its operands. -/
theorem induction {P : Condition → Prop} (always : P .always) (never : P .never)
    (literal : ∀ name inverted, P (.literal name inverted))
    (junction : ∀ kind operands, (∀ c ∈ operands, P c) → P (.junction kind operands)) : ∀ c, P c
  | .always => always
  | .never => never
  | .literal name inverted => literal name inverted
  | .junction kind operands =>
    junction kind operands (induction_mem always never literal junction operands)

private theorem induction_mem {P : Condition → Prop} (always : P .always) (never : P .never)
    (literal : ∀ name inverted, P (.literal name inverted))
    (junction : ∀ kind operands, (∀ c ∈ operands, P c) → P (.junction kind operands)) :
    ∀ l : List Condition, ∀ c ∈ l, P c
  | [], _, h => absurd h List.not_mem_nil
  | a :: l, c, h => by
    rcases List.mem_cons.mp h with hca | h
    · exact hca ▸ induction always never literal junction a
    · exact induction_mem always never literal junction l c h

end

/-! ## Order -/

/-- Constants come before literals and literals before junctions, conjunctions first. -/
def rank : Condition → Nat
  | .always => 0
  | .never => 1
  | .literal .. => 2
  | .junction .all _ => 3
  | .junction .any _ => 4

mutual

/-- Compares two conditions. -/
def cmp : Condition → Condition → Ordering
  | .literal m i, .literal n j => (compare m n).then (compare i j)
  | .junction .all as, .junction .all bs => cmpEach as bs
  | .junction .any as, .junction .any bs => cmpEach as bs
  | a, b => compare a.rank b.rank

/-- Compares two lists of conditions; one that runs out first comes first. -/
def cmpEach : List Condition → List Condition → Ordering
  | [], [] => .eq
  | [], _ :: _ => .lt
  | _ :: _, [] => .gt
  | a :: as, b :: bs => (cmp a b).then (cmpEach as bs)

end

instance : Ord Condition := ⟨cmp⟩

/-! ### The order is lawful

Conditions are compared by rank, then by name, then by inversion, then by operands, where what a
condition does not have counts as empty. Said so, the order has no cases, and each law follows level
by level. -/

private def nameOf : Condition → Name
  | .literal name _ => name
  | _ => ""

private def invertedOf : Condition → Bool
  | .literal _ inverted => inverted
  | _ => false

private def operandsOf : Condition → List Condition
  | .junction _ operands => operands
  | _ => []

private theorem cmp_eq (a b : Condition) :
    cmp a b = (compare a.rank b.rank).then ((compare a.nameOf b.nameOf).then
      ((compare a.invertedOf b.invertedOf).then (cmpEach a.operandsOf b.operandsOf))) := by
  rcases a with _ | _ | ⟨m, i⟩ | ⟨_ | _, as⟩ <;> rcases b with _ | _ | ⟨n, j⟩ | ⟨_ | _, bs⟩ <;>
    simp [cmp, rank, nameOf, invertedOf, operandsOf, cmpEach, Nat.compare_eq_ite_lt]

private theorem eq_of_parts {a b : Condition} (hr : a.rank = b.rank) (hn : a.nameOf = b.nameOf)
    (hi : a.invertedOf = b.invertedOf) (ho : a.operandsOf = b.operandsOf) : a = b := by
  rcases a with _ | _ | ⟨m, i⟩ | ⟨_ | _, as⟩ <;> rcases b with _ | _ | ⟨n, j⟩ | ⟨_ | _, bs⟩ <;>
    simp_all [rank, nameOf, invertedOf, operandsOf]

private theorem mem_operandsOf_induction {P : Condition → Prop}
    (h : ∀ a : Condition, (∀ c ∈ a.operandsOf, P c) → P a) (a : Condition) : P a := by
  induction a using Condition.induction with
  | always => exact h _ (by simp [operandsOf])
  | never => exact h _ (by simp [operandsOf])
  | literal n i => exact h _ (by simp [operandsOf])
  | junction k operands ih => exact h _ ih

private theorem then_lt_trans {o o' o'' p p' p'' : Ordering}
    (h : o = .lt → o' = .lt → o'' = .lt) (hl : o = .lt → o' = .eq → o'' = .lt)
    (hr : o = .eq → o' = .lt → o'' = .lt) (he : o = .eq → o' = .eq → o'' = .eq)
    (hp : p = .lt → p' = .lt → p'' = .lt) :
    o.then p = .lt → o'.then p' = .lt → o''.then p'' = .lt := by
  cases o <;> cases o' <;> simp_all [Ordering.then]

private theorem compare_then_lt_trans {α : Type} [Ord α] [Std.TransOrd α] {a b c : α}
    {p p' p'' : Ordering} (hp : p = .lt → p' = .lt → p'' = .lt) :
    (compare a b).then p = .lt → (compare b c).then p' = .lt → (compare a c).then p'' = .lt :=
  then_lt_trans Std.TransCmp.lt_trans Std.TransCmp.lt_of_lt_of_eq Std.TransCmp.lt_of_eq_of_lt
    Std.TransCmp.eq_trans hp

theorem cmp_self (a : Condition) : cmp a a = .eq := by
  induction a using mem_operandsOf_induction with
  | h a ih =>
    have hl : ∀ l : List Condition, (∀ c ∈ l, cmp c c = .eq) → cmpEach l l = .eq := by
      intro l hl
      induction l with
      | nil => rfl
      | cons c rest ihl =>
        rw [cmpEach, hl c (by simp), ihl fun x hx ↦ hl x (by simp [hx])]
        rfl
    rw [cmp_eq, hl _ ih]
    simp

theorem eq_of_cmp {a b : Condition} (h : cmp a b = .eq) : a = b := by
  induction a using mem_operandsOf_induction generalizing b with
  | h a ih =>
    have hl : ∀ l m : List Condition, (∀ c ∈ l, ∀ b, cmp c b = .eq → c = b) →
        cmpEach l m = .eq → l = m := by
      intro l
      induction l with
      | nil =>
        intro m _ hm
        cases m with
        | nil => rfl
        | cons b m => simp [cmpEach] at hm
      | cons c rest ihl =>
        intro m hc hm
        cases m with
        | nil => simp [cmpEach] at hm
        | cons b m =>
          rw [cmpEach, Ordering.then_eq_eq] at hm
          rw [hc c (by simp) b hm.1, ihl m (fun x hx ↦ hc x (by simp [hx])) hm.2]
    rw [cmp_eq] at h
    simp only [Ordering.then_eq_eq, Std.compare_eq_iff_eq] at h
    exact eq_of_parts h.1 h.2.1 h.2.2.1 (hl _ _ (fun c hc b ↦ ih c hc) h.2.2.2)

theorem cmp_swap (a b : Condition) : cmp a b = (cmp b a).swap := by
  induction a using mem_operandsOf_induction generalizing b with
  | h a ih =>
    have hl : ∀ l m : List Condition, (∀ c ∈ l, ∀ b, cmp c b = (cmp b c).swap) →
        cmpEach l m = (cmpEach m l).swap := by
      intro l
      induction l with
      | nil => intro m _; cases m <;> rfl
      | cons c rest ihl =>
        intro m hc
        cases m with
        | nil => rfl
        | cons b m =>
          rw [cmpEach, cmpEach, Ordering.swap_then, hc c (by simp) b,
            ihl m fun x hx ↦ hc x (by simp [hx])]
    rw [cmp_eq, cmp_eq b a, Ordering.swap_then, Ordering.swap_then, Ordering.swap_then,
      ← Std.OrientedOrd.eq_swap, ← Std.OrientedOrd.eq_swap, ← Std.OrientedOrd.eq_swap,
      ← hl _ _ fun c hc b ↦ ih c hc b]

theorem cmp_lt_trans {a b c : Condition} (hab : cmp a b = .lt) (hbc : cmp b c = .lt) :
    cmp a c = .lt := by
  induction a using mem_operandsOf_induction generalizing b c with
  | h a ih =>
    have hl : ∀ l m n : List Condition,
        (∀ x ∈ l, ∀ y z, cmp x y = .lt → cmp y z = .lt → cmp x z = .lt) →
        cmpEach l m = .lt → cmpEach m n = .lt → cmpEach l n = .lt := by
      intro l
      induction l with
      | nil =>
        intro m n _ hm hn
        cases n with
        | nil => cases m <;> simp [cmpEach] at hm hn
        | cons z n => rfl
      | cons x rest ihl =>
        intro m n hx hm hn
        cases m with
        | nil => simp [cmpEach] at hm
        | cons y m =>
          cases n with
          | nil => simp [cmpEach] at hn
          | cons z n =>
            rw [cmpEach] at hm hn ⊢
            refine then_lt_trans (hx x (by simp) y z) (fun h h' ↦ ?_) (fun h h' ↦ ?_)
              (fun h h' ↦ ?_) (ihl m n fun w hw ↦ hx w (by simp [hw])) hm hn
            · exact eq_of_cmp h' ▸ h
            · exact eq_of_cmp h ▸ h'
            · exact eq_of_cmp h ▸ h'
    rw [cmp_eq] at hab hbc ⊢
    exact compare_then_lt_trans (compare_then_lt_trans (compare_then_lt_trans
      (hl _ _ _ fun x hx y z ↦ ih x hx))) hab hbc

instance : Std.LawfulEqOrd Condition where
  compare_self := cmp_self _
  eq_of_compare := eq_of_cmp

instance : Std.TransOrd Condition where
  eq_swap := cmp_swap _ _
  isLE_trans {a b c} hab hbc := by
    cases h : compare a b with
    | lt =>
      cases h' : compare b c with
      | lt => rw [show compare a c = .lt from cmp_lt_trans h h']; rfl
      | eq => rw [← eq_of_cmp h', h]; rfl
      | gt => rw [h'] at hbc; exact absurd hbc (by decide)
    | eq => rw [eq_of_cmp h]; exact hbc
    | gt => rw [h] at hab; exact absurd hab (by decide)

instance : DecidableEq Condition := fun a b ↦
  decidable_of_iff (cmp a b = .eq) ⟨eq_of_cmp, fun h ↦ h ▸ cmp_self a⟩

/-! ## Building and printing -/

/-- The conjunction of a set of conditions. -/
def allOf (operands : List Condition) : Condition := .junction .all (Ascending.ofList operands)

/-- The disjunction of a set of conditions. -/
def anyOf (operands : List Condition) : Condition := .junction .any (Ascending.ofList operands)

mutual

/-- The printed form: `$a`, `!$a`, and junctions in parentheses. -/
def text : Condition → String
  | .always => "true"
  | .never => "false"
  | .literal name false => "$" ++ name
  | .literal name true => "!$" ++ name
  | .junction .all operands => "(" ++ String.intercalate " && " (texts operands) ++ ")"
  | .junction .any operands => "(" ++ String.intercalate " || " (texts operands) ++ ")"

/-- The printed forms of conditions. -/
def texts : List Condition → List String
  | [] => []
  | c :: rest => c.text :: texts rest

end

end Condition
end ResponseModels
