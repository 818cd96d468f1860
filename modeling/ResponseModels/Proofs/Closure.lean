import Mathlib.Logic.Relation
import ResponseModels.Proofs.Reports

/-!
# What a traversal reaches

`closure` goes through a table of names depth first, and the names it comes upon are those that can
be reached (`mem_closure_iff`). It fails if one of these has no entry, and only then
(`failsOnly_closure_of_reach`, `isSome_lookup_of_mem_closure`). So the result does not depend on the
order of the table or of the names that it starts from, except for its own order.

The fragments that a definition uses are collected by going through the table of spreads. So they
are those that can be reached by the spreads recorded in the fields of the result
(`mem_fragmentNames_iff`, `mem_operation_fragmentNames_iff`).
-/

set_option autoImplicit false

namespace ResponseModels

open Relation (ReflTransGen TransGen)

/-- One name refers to another by a table. -/
def Refers (table : List (Name × List Name)) (name other : Name) : Prop :=
  ∃ next, table.lookup name = some next ∧ other ∈ next

section closure

variable {table : List (Name × List Name)} {missing : Name → Error} {pending seen r : List Name}

/-! ## The steps of a traversal -/

theorem closure_nil : closure table missing [] seen = .ok seen := by rw [closure]

theorem closure_of_mem {n : Name} {rest : List Name} (hn : n ∈ seen) :
    closure table missing (n :: rest) seen = closure table missing rest seen := by
  rw [closure, dif_pos hn]

theorem closure_of_none {n : Name} {rest : List Name} (hn : n ∉ seen) (h : table.lookup n = none) :
    closure table missing (n :: rest) seen = .error (missing n) := by
  rw [closure, dif_neg hn]
  split
  · rfl
  · rename_i hsome
    rw [h] at hsome
    cases hsome

theorem closure_of_some {n : Name} {rest next : List Name} (hn : n ∉ seen)
    (h : table.lookup n = some next) :
    closure table missing (n :: rest) seen =
      closure table missing (next ++ rest) (seen ++ [n]) := by
  rw [closure, dif_neg hn]
  split
  · rename_i hnone
    rw [h] at hnone
    cases hnone
  · rename_i next' hnext'
    cases h.symm.trans hnext'
    rfl

/-- A traversal depends on what it looks up in the table, not on the order of the table. -/
theorem closure_congr {table' : List (Name × List Name)}
    (h : ∀ n, table.lookup n = table'.lookup n) :
    closure table missing pending seen = closure table' missing pending seen := by
  induction pending, seen using closure.induct table with
  | case1 seen => rw [closure_nil, closure_nil]
  | case2 seen m rest hm ih => rw [closure_of_mem hm, closure_of_mem hm, ih]
  | case3 seen m rest hm hnone => rw [closure_of_none hm hnone, closure_of_none hm (h m ▸ hnone)]
  | case4 seen m rest hm next hnext ih =>
    rw [closure_of_some hm hnext, closure_of_some hm (h m ▸ hnext), ih]

/-! ## What is collected -/

/-- A name that can be reached is the first one, or is reached from one that the first refers to. -/
theorem reflTransGen_refers_iff {n m : Name} {next : List Name} (h : table.lookup n = some next) :
    ReflTransGen (Refers table) n m ↔ m = n ∨ ∃ p ∈ next, ReflTransGen (Refers table) p m := by
  rw [ReflTransGen.cases_head_iff]
  refine or_congr eq_comm ⟨?_, ?_⟩
  · rintro ⟨p, ⟨next', hnext', hp⟩, hreach⟩
    cases h.symm.trans hnext'
    exact ⟨p, hp, hreach⟩
  · rintro ⟨p, hp, hreach⟩
    exact ⟨p, ⟨next, h, hp⟩, hreach⟩

/-- **What is collected can be reached.** -/
theorem exists_of_mem_closure (h : closure table missing pending seen = .ok r) {n : Name}
    (hn : n ∈ r) :
    n ∈ seen ∨ ∃ p ∈ pending, ReflTransGen (Refers table) p n := by
  induction pending, seen using closure.induct table with
  | case1 seen =>
    rw [closure] at h
    cases h
    exact .inl hn
  | case2 seen m rest hm ih =>
    rw [closure_of_mem hm] at h
    rcases ih h with hseen | ⟨p, hp, hreach⟩
    · exact .inl hseen
    · exact .inr ⟨p, List.mem_cons_of_mem m hp, hreach⟩
  | case3 seen m rest hm hnone =>
    rw [closure_of_none hm hnone] at h
    cases h
  | case4 seen m rest hm next hnext ih =>
    rw [closure_of_some hm hnext] at h
    rcases ih h with hseen | ⟨p, hp, hreach⟩
    · rcases List.mem_append.mp hseen with hseen | hself
      · exact .inl hseen
      · exact .inr ⟨m, List.mem_cons_self, List.mem_singleton.mp hself ▸ .refl⟩
    · rcases List.mem_append.mp hp with hp | hp
      · exact .inr ⟨m, List.mem_cons_self,
          (reflTransGen_refers_iff hnext).mpr (.inr ⟨p, hp, hreach⟩)⟩
      · exact .inr ⟨p, List.mem_cons_of_mem m hp, hreach⟩

/-- Everything pending is collected, besides what was seen before, and all that it refers to. What
was seen may refer to what is still pending. -/
theorem closed_of_closure (h : closure table missing pending seen = .ok r)
    (hseen : ∀ a ∈ seen, ∀ b, Refers table a b → b ∈ seen ∨ b ∈ pending) :
    (∀ n ∈ seen, n ∈ r) ∧ (∀ n ∈ pending, n ∈ r) ∧ ∀ a ∈ r, ∀ b, Refers table a b → b ∈ r := by
  induction pending, seen using closure.induct table with
  | case1 seen =>
    rw [closure] at h
    cases h
    refine ⟨fun n hn ↦ hn, fun n hn ↦ absurd hn List.not_mem_nil, fun a ha b hab ↦ ?_⟩
    exact (hseen a ha b hab).resolve_right List.not_mem_nil
  | case2 seen m rest hm ih =>
    rw [closure_of_mem hm] at h
    have hrest : ∀ a ∈ seen, ∀ b, Refers table a b → b ∈ seen ∨ b ∈ rest := by
      intro a ha b hab
      rcases hseen a ha b hab with hb | hb
      · exact .inl hb
      · rcases List.mem_cons.mp hb with rfl | hb
        · exact .inl hm
        · exact .inr hb
    obtain ⟨hkept, hpending, hclosed⟩ := ih h hrest
    exact ⟨hkept, List.forall_mem_cons.mpr ⟨hkept m hm, hpending⟩, hclosed⟩
  | case3 seen m rest hm hnone =>
    rw [closure_of_none hm hnone] at h
    cases h
  | case4 seen m rest hm next hnext ih =>
    rw [closure_of_some hm hnext] at h
    have hadded : ∀ a ∈ seen ++ [m], ∀ b, Refers table a b → b ∈ seen ++ [m] ∨
        b ∈ next ++ rest := by
      intro a ha b hab
      rcases List.mem_append.mp ha with ha | ha
      · rcases hseen a ha b hab with hb | hb
        · exact .inl (List.mem_append_left _ hb)
        · rcases List.mem_cons.mp hb with rfl | hb
          · exact .inl (List.mem_append_right _ (List.mem_singleton_self b))
          · exact .inr (List.mem_append_right _ hb)
      · cases List.mem_singleton.mp ha
        obtain ⟨next', hnext', hb⟩ := hab
        cases hnext.symm.trans hnext'
        exact .inr (List.mem_append_left _ hb)
    obtain ⟨hkept, hpending, hclosed⟩ := ih h hadded
    refine ⟨fun n hn ↦ hkept n (List.mem_append_left _ hn),
      List.forall_mem_cons.mpr ⟨?_, fun n hn ↦ ?_⟩, hclosed⟩
    · exact hkept m (List.mem_append_right _ (List.mem_singleton_self m))
    · exact hpending n (List.mem_append_right _ hn)

/-- **What a traversal collects**, after names that refer to nothing else, is all that can be
reached. -/
theorem mem_closure_iff (h : closure table missing pending seen = .ok r)
    (hseen : ∀ a ∈ seen, ∀ b, Refers table a b → b ∈ seen) {n : Name} :
    n ∈ r ↔ n ∈ seen ∨ ∃ p ∈ pending, ReflTransGen (Refers table) p n := by
  obtain ⟨hkept, hpending, hclosed⟩ := closed_of_closure h fun a ha b hab ↦ .inl (hseen a ha b hab)
  refine ⟨exists_of_mem_closure h, ?_⟩
  rintro (hn | ⟨p, hp, hreach⟩)
  · exact hkept n hn
  · induction hreach with
    | refl => exact hpending p hp
    | tail _ hstep ih => exact hclosed _ ih _ hstep

/-- What is collected was found in the table. -/
theorem isSome_lookup_of_mem_closure (h : closure table missing pending seen = .ok r)
    (hseen : ∀ n ∈ seen, (table.lookup n).isSome) : ∀ n ∈ r, (table.lookup n).isSome := by
  induction pending, seen using closure.induct table with
  | case1 seen =>
    rw [closure] at h
    cases h
    exact hseen
  | case2 seen m rest hm ih =>
    rw [closure_of_mem hm] at h
    exact ih h hseen
  | case3 seen m rest hm hnone =>
    rw [closure_of_none hm hnone] at h
    cases h
  | case4 seen m rest hm next hnext ih =>
    rw [closure_of_some hm hnext] at h
    refine ih h fun n hn ↦ ?_
    rcases List.mem_append.mp hn with hn | hn
    · exact hseen n hn
    · rw [List.mem_singleton.mp hn, hnext, Option.isSome_some]

/-- Where all that can be reached is in the table, a traversal does not fail. -/
theorem failsOnly_closure_of_reach {P : Error → Prop}
    (hpending : ∀ p ∈ pending, ∀ n, ReflTransGen (Refers table) p n → (table.lookup n).isSome) :
    FailsOnly P (closure table missing pending seen) := by
  induction pending, seen using closure.induct table with
  | case1 seen =>
    rw [closure]
    exact .ok seen
  | case2 seen m rest hm ih =>
    rw [closure_of_mem hm]
    exact ih fun p hp ↦ hpending p (List.mem_cons_of_mem m hp)
  | case3 seen m rest hm hnone =>
    have hsome := hpending m List.mem_cons_self m .refl
    rw [hnone] at hsome
    cases hsome
  | case4 seen m rest hm next hnext ih =>
    rw [closure_of_some hm hnext]
    refine ih fun p hp n hreach ↦ ?_
    rcases List.mem_append.mp hp with hp | hp
    · exact hpending m List.mem_cons_self n
        ((reflTransGen_refers_iff hnext).mpr (.inr ⟨p, hp, hreach⟩))
    · exact hpending p (List.mem_cons_of_mem m hp) n hreach

/-- A traversal fails over a name that is missing. -/
theorem failsOnly_closure_of_missing {P : Error → Prop} (hmissing : ∀ n, P (missing n)) :
    FailsOnly P (closure table missing pending seen) := by
  induction pending, seen using closure.induct table with
  | case1 seen =>
    rw [closure]
    exact .ok seen
  | case2 seen m rest hm ih =>
    rw [closure_of_mem hm]
    exact ih
  | case3 seen m rest hm hnone =>
    rw [closure_of_none hm hnone]
    exact .error (hmissing m)
  | case4 seen m rest hm next hnext ih =>
    rw [closure_of_some hm hnext]
    exact ih

end closure

/-! ## The fragments that are used -/

/-- A table has the content of the first entry of a key. -/
theorem lookup_map {α : Type} {key : α → Name} {content : α → List Name} (l : List α) (n : Name) :
    (l.map fun a ↦ (key a, content a)).lookup n = (l.find? fun a ↦ key a == n).map content := by
  induction l with
  | nil => rfl
  | cons a rest ih =>
    rw [List.map_cons, List.lookup_cons, List.find?_cons, BEq.comm (a := n)]
    cases hkey : key a == n with
    | true => rfl
    | false => exact ih

namespace FragmentLibrary

variable {lib : FragmentLibrary} {f : Field} {names : NameSet}

/-- One fragment of a library refers to another when the other is spread in its field. -/
theorem refers_spreadTable_iff {name other : Name} :
    Refers lib.spreadTable name other ↔ ∃ b, lib.built? name = some b ∧
      other ∈ b.field.spreads := by
  rw [Refers, spreadTable, lookup_map, ← built?]
  simp only [Option.map_eq_some_iff]
  constructor
  · rintro ⟨_, ⟨b, hb, rfl⟩, hother⟩
    exact ⟨b, hb, hother⟩
  · rintro ⟨b, hb, hother⟩
    exact ⟨_, ⟨b, hb, rfl⟩, hother⟩

theorem mem_usedFragments_iff (h : lib.usedFragments f = .ok names) {n : Name} :
    n ∈ names ↔ ∃ p ∈ f.spreads, ReflTransGen (Refers lib.spreadTable) p n := by
  obtain ⟨reached, hreached, h⟩ := Error.bind_eq_ok.mp h
  cases h
  rw [NameSet.mem_ofList, mem_closure_iff hreached fun a ha ↦ absurd ha List.not_mem_nil]
  exact or_iff_right List.not_mem_nil

end FragmentLibrary

/-- In the tree of one fragment of a representation a spread of another is recorded. -/
def Representation.Records (ir : Representation) (name other : Name) : Prop :=
  ∃ r ∈ ir.fragments, r.name = name ∧ other ∈ r.field.spreads

section build

variable {schema : Schema} {d : Document} {config : Config} {ir : Representation}
  {lib : FragmentLibrary}

/-- The spreads of a library are those that the result records. -/
theorem refers_iff_records (hlib : FragmentLibrary.ofDocument schema d config = .ok lib)
    {used used' : List Name}
    (h : buildFragments schema config lib d.fragments used = .ok (ir.fragments, used')) :
    Refers lib.spreadTable = ir.Records := by
  funext name other
  rw [FragmentLibrary.refers_spreadTable_iff, Representation.Records]
  refine propext ⟨?_, ?_⟩
  · rintro ⟨b, hb, hother⟩
    have hname : b.name = name := by simpa using List.find?_some hb
    obtain ⟨r, hr, hrname, -⟩ := exists_fragment_of_mem_built hlib h (List.mem_of_find?_eq_some hb)
    obtain ⟨f, -, hok⟩ := exists_of_mem_buildFragments h hr
    obtain ⟨-, -, c, hc, hfield, -⟩ := buildFragment_eq_ok hok
    rw [hrname, hname, hb] at hc
    cases hc
    exact ⟨r, hr, hrname.trans hname, hfield ▸ hother⟩
  · rintro ⟨r, hr, rfl, hother⟩
    obtain ⟨f, -, hok⟩ := exists_of_mem_buildFragments h hr
    obtain ⟨-, -, b, hb, hfield, -⟩ := buildFragment_eq_ok hok
    exact ⟨b, hb, hfield ▸ hother⟩

theorem usedFragments_of_buildFragment {f : Fragment} {r : FragmentModels}
    (h : buildFragment config lib f = .ok r) :
    lib.usedFragments r.field = .ok r.fragmentNames := by
  obtain ⟨b, -, h⟩ := Error.bind_eq_ok.mp h
  obtain ⟨fragmentNames, hnames, h⟩ := Error.bind_eq_ok.mp h
  cases h
  exact hnames

theorem usedFragments_of_buildOperation {name : Name} {op : Operation} {o : OperationModels}
    (h : buildOperation schema d config lib name op = .ok o) :
    lib.usedFragments o.field = .ok o.fragmentNames ∧
      o.source = d.operationSource op o.fragmentNames := by
  obtain ⟨rootType, -, h⟩ := Error.bind_eq_ok.mp h
  obtain ⟨field, -, h⟩ := Error.bind_eq_ok.mp h
  obtain ⟨group, -, h⟩ := Error.bind_eq_ok.mp h
  obtain ⟨inputs, -, h⟩ := Error.bind_eq_ok.mp h
  obtain ⟨fragmentNames, hnames, h⟩ := Error.bind_eq_ok.mp h
  cases h
  exact ⟨hnames, rfl⟩

variable (h : build schema config d = .ok ir)
include h

/-- **The fragments that a fragment uses** are those that can be reached from it by recorded
spreads. -/
theorem mem_fragmentNames_iff {r : FragmentModels} (hr : r ∈ ir.fragments) {n : Name} :
    n ∈ r.fragmentNames ↔ TransGen ir.Records r.name n := by
  obtain ⟨lib, _, _, _, hlib, hfragments, -⟩ := build_eq_ok h
  obtain ⟨f, -, hok⟩ := exists_of_mem_buildFragments hfragments hr
  obtain ⟨-, -, b, hb, hfield, -⟩ := buildFragment_eq_ok hok
  rw [FragmentLibrary.mem_usedFragments_iff (usedFragments_of_buildFragment hok),
    ← refers_iff_records hlib hfragments, TransGen.head'_iff]
  simp only [FragmentLibrary.refers_spreadTable_iff, hb, Option.some.injEq, exists_eq_left', hfield]

/-- **The fragments that an operation uses** are those that can be reached by recorded spreads from
the spreads in it. -/
theorem mem_operation_fragmentNames_iff {o : OperationModels} (ho : o ∈ ir.operations) {n : Name} :
    n ∈ o.fragmentNames ↔ ∃ p ∈ o.field.spreads, ReflTransGen ir.Records p n := by
  obtain ⟨lib, _, _, _, hlib, hfragments, hoperations⟩ := build_eq_ok h
  obtain ⟨⟨name, op⟩, -, hok⟩ := exists_of_mem_buildOperations hoperations ho
  rw [FragmentLibrary.mem_usedFragments_iff (usedFragments_of_buildOperation hok).1,
    refers_iff_records hlib hfragments]

end build
end ResponseModels
