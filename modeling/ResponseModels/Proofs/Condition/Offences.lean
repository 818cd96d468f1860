import Mathlib.Data.List.Induction
import ResponseModels.Proofs.Condition.Alternatives

/-!
# Which directives are reported

A directive that makes its selection conditional is *offending* if its argument is missing or
neither a boolean nor a variable, or if it states a condition that one before it states already
(`Offends`). Directives are read in order and the first offending one is reported. If there is none,
the condition read off them holds exactly when every `@include` is true and every `@skip` is false.

`stated_step` says what becomes of one directive, given the conditions that those before it state,
and `stated_run` what becomes of a whole list. The order matters to which directive is reported, but
not to whether one is: `noneOffends_iff` says what it takes of each directive and of each two of
them. With that, the condition is the same however the directives are arranged and whatever others
stand between them.
-/

set_option autoImplicit false

namespace ResponseModels

namespace Directive

/-- Whether a directive makes its selection conditional. -/
def isConditional (d : Directive) : Bool := d.name == "skip" || d.name == "include"

/-- The condition that a directive states on its own. -/
inductive States (d : Directive) : Condition → Prop
  | includeBoolean {b : Bool} (name : d.name = "include")
      (argument : d.argument? "if" = some (.boolean b)) :
      States d (if b then .always else .never)
  | skipBoolean {b : Bool} (name : d.name = "skip")
      (argument : d.argument? "if" = some (.boolean b)) :
      States d (if b then .never else .always)
  | includeVariable {x : Name} (name : d.name = "include")
      (argument : d.argument? "if" = some (.var x)) :
      States d (.literal x false)
  | skipVariable {x : Name} (name : d.name = "skip") (argument : d.argument? "if" = some (.var x)) :
      States d (.literal x true)

/-- A directive that should state a condition and does not, with the error that says so. -/
inductive Malformed (d : Directive) : Error → Prop
  | missing (conditional : d.isConditional = true) (argument : d.argument? "if" = none) :
      Malformed d (.invalidDirectiveArgument d.name "nothing")
  | unfit {value : Value} (conditional : d.isConditional = true)
      (argument : d.argument? "if" = some value) (noBoolean : ∀ b, value ≠ .boolean b)
      (noVariable : ∀ x, value ≠ .var x) :
      Malformed d (.invalidDirectiveArgument d.name (value.layout 0))

/-- A directive that is reported when it stands after the directives `before`. -/
inductive Offends (selection : String) (before : List Directive) (d : Directive) : Error → Prop
  | malformed {e : Error} (h : d.Malformed e) : Offends selection before d e
  | repeated {c : Condition} {earlier : Directive} (mem : earlier ∈ before)
      (states : earlier.States c) (again : d.States c) :
      Offends selection before d (.duplicateCondition selection c.text)

/-- The directive that stands after `before` in a list is offending. -/
def OffendsAt (selection : String) (directives before : List Directive) (e : Error) : Prop :=
  ∃ d after, directives = before ++ d :: after ∧ d.Offends selection before e

/-- The directive that stands after `before` is the first offending one. -/
structure OffendsFirst (selection : String) (directives before : List Directive)
    (e : Error) : Prop where
  /-- It offends. -/
  offends : OffendsAt selection directives before e
  /-- None that stands before it does. -/
  first : ∀ earlier, earlier.length < before.length →
    ∀ e', ¬ OffendsAt selection directives earlier e'

/-- No directive of a list is offending. -/
def NoneOffends (selection : String) (directives : List Directive) : Prop :=
  ∀ before e, ¬ OffendsAt selection directives before e

/-- The values of the variables are as a directive asks: an `@include` is true, a `@skip` is
false. -/
def MetBy (v : Name → Bool) (d : Directive) : Prop :=
  (d.name = "include" → d.test? v = some true) ∧ (d.name = "skip" → d.test? v = some false)

variable {selection : String} {directives before : List Directive} {d : Directive} {c : Condition}
  {e e' : Error}

/-! ## One directive

A conditional directive states one condition or is malformed in one way, and not both, because both
are read off it by one function. -/

theorem inversion?_eq_none_iff : Condition.inversion? d.name = none ↔ d.isConditional = false := by
  rw [Condition.inversion?, isConditional]
  split
  · simp_all
  · split <;> simp_all

theorem inversion?_eq_some_iff {inverted : Bool} :
    Condition.inversion? d.name = some inverted ↔
      d.name = if inverted then "skip" else "include" := by
  rw [Condition.inversion?]
  split
  · cases inverted <;> simp_all
  · split <;> cases inverted <;> simp_all

theorem exists_inversion (h : d.isConditional = true) :
    ∃ inverted, Condition.inversion? d.name = some inverted := by
  rw [← Option.ne_none_iff_exists', ne_eq, inversion?_eq_none_iff, h]
  simp

theorem States.isConditional (h : d.States c) : d.isConditional = true := by
  cases h <;> simp_all [Directive.isConditional]

theorem Malformed.isConditional (h : d.Malformed e) : d.isConditional = true := by
  cases h <;> assumption

theorem Offends.isConditional (h : d.Offends selection before e) : d.isConditional = true := by
  cases h with
  | malformed h => exact h.isConditional
  | repeated _ _ again => exact again.isConditional

theorem states_iff {inverted : Bool} (hi : Condition.inversion? d.name = some inverted) :
    d.States c ↔ Condition.ofDirective d inverted = .ok c := by
  have hname := inversion?_eq_some_iff.mp hi
  constructor
  · intro h
    cases h with
    | includeBoolean name argument => cases inverted <;> simp_all [Condition.ofDirective]
    | @skipBoolean b name argument =>
      cases inverted <;> cases b <;> simp_all [Condition.ofDirective]
    | includeVariable name argument => cases inverted <;> simp_all [Condition.ofDirective]
    | skipVariable name argument => cases inverted <;> simp_all [Condition.ofDirective]
  · intro h
    unfold Condition.ofDirective at h
    split at h
    · cases h
    · rename_i b hargument
      cases h
      cases inverted with
      | false => cases b <;> exact .includeBoolean hname hargument
      | true => cases b <;> exact .skipBoolean hname hargument
    · rename_i x hargument
      cases h
      cases inverted with
      | false => exact .includeVariable hname hargument
      | true => exact .skipVariable hname hargument
    · cases h

theorem malformed_iff {inverted : Bool} (hi : Condition.inversion? d.name = some inverted) :
    d.Malformed e ↔ Condition.ofDirective d inverted = .error e := by
  constructor
  · intro h
    cases h with
    | missing _ argument => rw [Condition.ofDirective, argument]
    | @unfit value _ argument noBoolean noVariable =>
      rw [Condition.ofDirective, argument]
      cases value with
      | boolean b => exact absurd rfl (noBoolean b)
      | var x => exact absurd rfl (noVariable x)
      | _ => rfl
  · intro h
    have hconditional : d.isConditional = true := by
      rw [← Bool.not_eq_false, ← inversion?_eq_none_iff, hi]
      simp
    unfold Condition.ofDirective at h
    split at h
    · rename_i hargument
      cases h
      exact .missing hconditional hargument
    · cases h
    · cases h
    · rename_i value hboolean hvariable hargument
      cases h
      exact .unfit hconditional hargument (fun b hb ↦ hboolean b hb) fun x hx ↦ hvariable x hx

theorem States.unique {c' : Condition} (h : d.States c) (h' : d.States c') : c = c' := by
  obtain ⟨inverted, hi⟩ := exists_inversion h.isConditional
  rw [states_iff hi] at h h'
  exact Except.ok.inj (h.symm.trans h')

theorem Malformed.unique (h : d.Malformed e) (h' : d.Malformed e') : e = e' := by
  obtain ⟨inverted, hi⟩ := exists_inversion h.isConditional
  rw [malformed_iff hi] at h h'
  exact Except.error.inj (h.symm.trans h')

theorem Malformed.not_states (h : d.Malformed e) : ¬ d.States c := by
  intro h'
  obtain ⟨inverted, hi⟩ := exists_inversion h.isConditional
  rw [malformed_iff hi] at h
  rw [states_iff hi, h] at h'
  cases h'

theorem exists_states (hconditional : d.isConditional = true) (h : ∀ e, ¬ d.Malformed e) :
    ∃ c, d.States c := by
  obtain ⟨inverted, hi⟩ := exists_inversion hconditional
  cases hd : Condition.ofDirective d inverted with
  | error e => exact absurd ((malformed_iff hi).mpr hd) (h e)
  | ok c => exact ⟨c, (states_iff hi).mpr hd⟩

theorem Offends.unique (h : d.Offends selection before e) (h' : d.Offends selection before e') :
    e = e' := by
  cases h with
  | malformed h =>
    cases h' with
    | malformed h' => exact h.unique h'
    | repeated _ _ hagain => exact absurd hagain h.not_states
  | repeated _ _ hagain =>
    cases h' with
    | malformed h' => exact absurd hagain h'.not_states
    | repeated _ _ hagain' => rw [hagain.unique hagain']

theorem not_offends_iff :
    (∀ e, ¬ d.Offends selection before e) ↔
      (∀ e, ¬ d.Malformed e) ∧ ∀ earlier ∈ before, ∀ c, ¬ (earlier.States c ∧ d.States c) := by
  constructor
  · intro h
    exact ⟨fun e he ↦ h e (.malformed he), fun earlier hmem c ⟨hstates, hagain⟩ ↦
      h _ (.repeated hmem hstates hagain)⟩
  · rintro ⟨hfit, hnew⟩ e hoffends
    cases hoffends with
    | malformed h => exact hfit e h
    | repeated hmem hstates hagain => exact hnew _ hmem _ ⟨hstates, hagain⟩

/-- Execution pays no heed to malformed directives. Of the others it asks what they say. -/
theorem passes_iff {v : Name → Bool} (h : ∀ e, ¬ d.Malformed e) :
    d.passes v = true ↔ d.MetBy v := by
  by_cases hconditional : d.isConditional = true
  · obtain ⟨c, hc⟩ := exists_states hconditional h
    cases hc with
    | includeBoolean name argument => simp [passes, MetBy, name, test?, argument]
    | skipBoolean name argument => simp [passes, MetBy, name, test?, argument]
    | includeVariable name argument => simp [passes, MetBy, name, test?, argument]
    | skipVariable name argument => simp [passes, MetBy, name, test?, argument]
  · simp only [Directive.isConditional, Bool.or_eq_true, beq_iff_eq, not_or] at hconditional
    simp [passes, MetBy, hconditional]

/-! ## Places in a list -/

theorem offendsAt_concat :
    OffendsAt selection (directives ++ [d]) before e ↔
      OffendsAt selection directives before e ∨ before = directives ∧
      d.Offends selection before e := by
  constructor
  · rintro ⟨x, after, heq, hoffends⟩
    rcases List.eq_nil_or_concat after with rfl | ⟨after', y, rfl⟩
    · obtain ⟨rfl, hx⟩ := List.append_inj' heq rfl
      cases hx
      exact .inr ⟨rfl, hoffends⟩
    · rw [List.concat_eq_append, ← List.cons_append, ← List.append_assoc] at heq
      exact .inl ⟨x, after', (List.append_inj' heq rfl).1, hoffends⟩
  · rintro (⟨x, after, rfl, hoffends⟩ | ⟨rfl, hoffends⟩)
    · exact ⟨x, after ++ [d], by simp, hoffends⟩
    · exact ⟨d, [], rfl, hoffends⟩

theorem OffendsAt.length_lt (h : OffendsAt selection directives before e) :
    before.length < directives.length := by
  obtain ⟨d, after, rfl, -⟩ := h
  simp

theorem OffendsFirst.unique {before' : List Directive}
    (h : OffendsFirst selection directives before e)
    (h' : OffendsFirst selection directives before' e') : e = e' := by
  have hlength : before.length = before'.length := by
    have hle := mt (h'.first before · e) (not_not_intro h.offends)
    have hge := mt (h.first before' · e') (not_not_intro h'.offends)
    omega
  obtain ⟨d, after, heq, hoffends⟩ := h.offends
  obtain ⟨d', after', heq', hoffends'⟩ := h'.offends
  obtain ⟨rfl, htail⟩ := List.append_inj (heq.symm.trans heq') hlength
  cases htail
  exact hoffends.unique hoffends'

/-- The first offending directive stays the first one when another is added at the end. -/
theorem OffendsFirst.concat (h : OffendsFirst selection directives before e) (d : Directive) :
    OffendsFirst selection (directives ++ [d]) before e where
  offends := offendsAt_concat.mpr (.inl h.offends)
  first := by
    intro earlier hlt e' hearlier
    rcases offendsAt_concat.mp hearlier with hearlier | ⟨rfl, -⟩
    · exact h.first earlier hlt e' hearlier
    · exact absurd h.offends.length_lt (Nat.lt_asymm hlt)

theorem noneOffends_nil : NoneOffends selection [] := by
  rintro before e ⟨d, after, heq, -⟩
  simp at heq

theorem NoneOffends.offendsFirst (h : NoneOffends selection directives)
    (hd : d.Offends selection directives e) :
    OffendsFirst selection (directives ++ [d]) directives e where
  offends := offendsAt_concat.mpr (.inr ⟨rfl, hd⟩)
  first := by
    intro earlier hlt e' hearlier
    rcases offendsAt_concat.mp hearlier with hearlier | ⟨rfl, -⟩
    · exact h earlier e' hearlier
    · exact Nat.lt_irrefl _ hlt

theorem noneOffends_concat :
    NoneOffends selection (directives ++ [d]) ↔ NoneOffends selection directives ∧
      ∀ e, ¬ d.Offends selection directives e := by
  constructor
  · intro h
    exact ⟨fun before e hoffends ↦ h before e (offendsAt_concat.mpr (.inl hoffends)),
      fun e hoffends ↦ h directives e (offendsAt_concat.mpr (.inr ⟨rfl, hoffends⟩))⟩
  · rintro ⟨hnone, hd⟩ before e hoffends
    rcases offendsAt_concat.mp hoffends with hoffends | ⟨rfl, hlast⟩
    · exact hnone before e hoffends
    · exact hd e hlast

/-! ## Arrangement -/

/-- **Whether a directive of a list is offending does not depend on the order.** -/
theorem noneOffends_iff :
    NoneOffends selection directives ↔
      (∀ d ∈ directives, ∀ e, ¬ d.Malformed e) ∧ directives.Pairwise fun d d' ↦
        ∀ c, ¬ (d.States c ∧ d'.States c) := by
  induction directives using List.reverseRecOn with
  | nil => simp [noneOffends_nil]
  | append_singleton directives d ih =>
    rw [noneOffends_concat, ih, not_offends_iff, List.pairwise_append]
    simp only [List.mem_append, List.mem_singleton, or_imp, forall_and, forall_eq,
      List.pairwise_singleton, true_and]
    exact and_and_and_comm

theorem noneOffends_filter_iff :
    NoneOffends selection (directives.filter isConditional) ↔ NoneOffends selection directives := by
  rw [noneOffends_iff, noneOffends_iff, List.pairwise_filter]
  refine and_congr ?_ ?_
  · simp only [List.mem_filter]
    exact ⟨fun h d hd e he ↦ h d ⟨hd, he.isConditional⟩ e he, fun h d hd ↦ h d hd.1⟩
  · refine List.Pairwise.iff fun {d d'} ↦ ?_
    exact ⟨fun h c hc ↦ h hc.1.isConditional hc.2.isConditional c hc, fun h _ _ ↦ h⟩

theorem exists_states_filter_iff (directives : List Directive) :
    (∃ d ∈ directives.filter isConditional, d.States c) ↔ ∃ d ∈ directives, d.States c := by
  simp only [List.mem_filter]
  exact ⟨fun ⟨d, hd, hc⟩ ↦ ⟨d, hd.1, hc⟩, fun ⟨d, hd, hc⟩ ↦ ⟨d, ⟨hd, hc.isConditional⟩, hc⟩⟩

section Perm

variable {directives' : List Directive}
  (hperm : (directives'.filter isConditional).Perm (directives.filter isConditional))
include hperm

/-- None is offending when the same conditional directives are arranged differently, among other
directives. -/
theorem NoneOffends.of_perm {selection' : String} (h : NoneOffends selection directives) :
    NoneOffends selection' directives' := by
  rw [← noneOffends_filter_iff, noneOffends_iff] at h ⊢
  refine ⟨fun d hd ↦ h.1 d (hperm.mem_iff.mp hd), (hperm.pairwise_iff ?_).mpr h.2⟩
  exact fun hne c hc ↦ hne c hc.symm

theorem exists_states_iff_of_perm :
    (∃ d ∈ directives', d.States c) ↔ ∃ d ∈ directives, d.States c := by
  rw [← exists_states_filter_iff directives', ← exists_states_filter_iff directives]
  exact exists_congr fun d ↦ and_congr_left fun _ ↦ hperm.mem_iff

end Perm

end Directive

/-! ## Reading directives in order -/

namespace Condition

open Directive

variable {selection : String} {directives : List Directive} {c : Condition}

theorem stated_append (front rest : List Directive) (found : List Condition) :
    stated selection (front ++ rest) found =
      (stated selection front found).bind (stated selection rest) := by
  induction front generalizing found with
  | nil => rfl
  | cons d front ih =>
    rw [List.cons_append, stated, stated]
    split
    · exact ih found
    · cases ofDirective d _ with
      | error e => rfl
      | ok c =>
        change (if c ∈ found then _ else _) = (if c ∈ found then _ else _ : Except Error _).bind _
        split
        · rfl
        · exact ih _

theorem stated_singleton {d : Directive} {inverted : Bool} (hi : inversion? d.name = some inverted)
    (found : List Condition) :
    stated selection [d] found = (ofDirective d inverted).bind fun c ↦
      if c ∈ found then .error (.duplicateCondition selection c.text) else .ok (found ++ [c]) := by
  rw [stated, hi]
  rfl

/-- **One directive**, given the conditions that those before it state: it is reported, or what it
states is added. -/
theorem stated_step {before : List Directive} {found : List Condition}
    (hfound : ∀ c, c ∈ found ↔ ∃ d ∈ before, d.States c) (d : Directive) :
    (∃ e, d.Offends selection before e ∧ stated selection [d] found = .error e) ∨
    (∀ e, ¬ d.Offends selection before e) ∧
      ∃ found', stated selection [d] found = .ok found' ∧ ∀ c, c ∈ found' ↔
      ∃ x ∈ before ++ [d], x.States c := by
  have hmem : ∀ c, (∃ x ∈ before ++ [d], x.States c) ↔ c ∈ found ∨ d.States c := by
    simp [hfound, or_and_right, exists_or]
  simp only [hmem]
  cases hi : inversion? d.name with
  | none =>
    have hnot := Bool.eq_false_iff.mp (inversion?_eq_none_iff.mp hi)
    refine .inr ⟨fun e h ↦ hnot h.isConditional, found, by rw [stated, hi]; rfl, fun c ↦ ?_⟩
    exact (or_iff_left fun h : d.States c ↦ hnot h.isConditional).symm
  | some inverted =>
    rw [stated_singleton hi]
    cases h : ofDirective d inverted with
    | error e => exact .inl ⟨e, .malformed ((malformed_iff hi).mpr h), rfl⟩
    | ok c =>
      have hstates : d.States c := (states_iff hi).mpr h
      rw [Except.bind]
      by_cases hold : c ∈ found
      · obtain ⟨earlier, hearlier, hstated⟩ := (hfound c).mp hold
        rw [if_pos hold]
        exact .inl ⟨_, .repeated hearlier hstated hstates, rfl⟩
      · rw [if_neg hold]
        refine .inr ⟨fun e hoffends ↦ ?_, found ++ [c], rfl, fun c' ↦ ?_⟩
        · cases hoffends with
          | malformed hbad => exact hbad.not_states hstates
          | repeated hearlier hstated hagain =>
            exact hold ((hfound c).mpr ⟨_, hearlier, hstates.unique hagain ▸ hstated⟩)
        · rw [List.mem_append, List.mem_singleton]
          exact or_congr_right ⟨fun heq ↦ heq ▸ hstates, fun hc' ↦ hc'.unique hstates⟩

/-- **All directives**: the first offending one is reported, or all that they state is found. -/
theorem stated_run (selection : String) (directives : List Directive) :
    (∃ before e, OffendsFirst selection directives before e ∧
      stated selection directives [] = .error e) ∨ NoneOffends selection directives ∧
      ∃ found, stated selection directives [] = .ok found ∧ ∀ c, c ∈ found ↔
      ∃ d ∈ directives, d.States c := by
  induction directives using List.reverseRecOn with
  | nil => exact .inr ⟨noneOffends_nil, [], rfl, by simp⟩
  | append_singleton directives d ih =>
    rw [stated_append]
    rcases ih with ⟨before, e, hfirst, herror⟩ | ⟨hnone, found, hok, hfound⟩
    · rw [herror]
      exact .inl ⟨before, e, hfirst.concat d, rfl⟩
    · rw [hok]
      rcases stated_step hfound d with ⟨e, hoffends, herror⟩ | ⟨hd, found', hok', hfound'⟩
      · exact .inl ⟨directives, e, hnone.offendsFirst hoffends, herror⟩
      · exact .inr ⟨noneOffends_concat.mpr ⟨hnone, hd⟩, found', hok', hfound'⟩

theorem ofDirectives_run (directives : List Directive) (selection : String) :
    (∃ before e, OffendsFirst selection directives before e ∧
      ofDirectives directives selection = .error e) ∨ NoneOffends selection directives ∧
      ∃ found, ofDirectives directives selection = .ok (allOf found).simplify ∧ ∀ c, c ∈ found ↔
      ∃ d ∈ directives, d.States c := by
  rw [ofDirectives]
  rcases stated_run selection directives with ⟨before, e, hfirst, herror⟩ |
    ⟨hnone, found, hok, hfound⟩
  · exact .inl ⟨before, e, hfirst, by rw [herror]; rfl⟩
  · exact .inr ⟨hnone, found, by rw [hok]; rfl, hfound⟩

/-- A condition that was read off directives is the conjunction of what they state. -/
theorem of_ofDirectives (h : ofDirectives directives selection = .ok c) :
    NoneOffends selection directives ∧
      ∃ found, c = (allOf found).simplify ∧ ∀ c, c ∈ found ↔ ∃ d ∈ directives, d.States c := by
  rcases ofDirectives_run directives selection with ⟨before, e, -, herror⟩ |
    ⟨hnone, found, hok, hfound⟩
  · rw [herror] at h
    cases h
  · exact ⟨hnone, found, Except.ok.inj (h.symm.trans hok), hfound⟩

theorem eval_ofDirectives_iff (h : ofDirectives directives selection = .ok c) (v : Name → Bool) :
    c.eval v = true ↔ ∀ d ∈ directives, d.MetBy v := by
  rw [eval_ofDirectives h, included, List.all_eq_true]
  exact forall₂_congr fun d hd ↦ passes_iff ((noneOffends_iff.mp (of_ofDirectives h).1).1 d hd)

theorem form_ofDirectives (h : ofDirectives directives selection = .ok c) :
    c = .always ∨ c = .never ∨ c.Term := by
  have hcanonical : c.Canonical := by
    obtain ⟨-, found, rfl, -⟩ := of_ofDirectives h
    exact canonical_simplify _
  by_cases halways : c = .always
  · exact .inl halways
  by_cases hnever : c = .never
  · exact .inr (.inl hnever)
  exact .inr (.inr ((clause_ofDirectives h).term hcanonical halways hnever))

theorem allOf_congr {l m : List Condition} (h : ∀ c, c ∈ l ↔ c ∈ m) : allOf l = allOf m := by
  refine congrArg (junction .all)
    (Ascending.ext (Ascending.isAscending_ofList _) (Ascending.isAscending_ofList _) fun c ↦ ?_)
  simp [h]

/-- The condition does not depend on how the directives are arranged. -/
theorem ofDirectives_of_perm {directives' : List Directive}
    (hperm : (directives'.filter isConditional).Perm (directives.filter isConditional))
    (h : ofDirectives directives selection = .ok c) (selection' : String) :
    ofDirectives directives' selection' = .ok c := by
  obtain ⟨hnone, found, rfl, hfound⟩ := of_ofDirectives h
  rcases ofDirectives_run directives' selection' with ⟨before, e, hfirst, -⟩ |
    ⟨-, found', hok', hfound'⟩
  · exact absurd hfirst.offends (hnone.of_perm hperm before e)
  · rw [hok', allOf_congr fun c ↦ ?_]
    rw [hfound', hfound, exists_states_iff_of_perm hperm]

/-- **Directives are read exactly.** Reading fails if and only if some directive is offending, and
then with the error of the first one. Otherwise it gives a condition that holds exactly when every
`@include` is true and every `@skip` is false, that is a constant, a literal or a conjunction of two
or more different literals, none the inversion of another, and that is the same for any arrangement
of the conditional directives, whatever others stand between them. -/
theorem ofDirectives_eq_error_or_ok (directives : List Directive) (selection : String) :
    (∀ e, ofDirectives directives selection = .error e ↔
      ∃ before, OffendsFirst selection directives before e) ∧
    ((∃ e, ofDirectives directives selection = .error e) ↔
      ∃ before e, OffendsAt selection directives before e) ∧
    ((∀ before e, ¬ OffendsAt selection directives before e) →
      ∃ c, ofDirectives directives selection = .ok c ∧
        (∀ v, c.eval v = true ↔ ∀ d ∈ directives, d.MetBy v) ∧
        (c = .always ∨ c = .never ∨ c.Term) ∧
        ∀ directives' selection',
          (directives'.filter isConditional).Perm (directives.filter isConditional) →
          ofDirectives directives' selection' = .ok c) := by
  rcases ofDirectives_run directives selection with ⟨before, e, hfirst, herror⟩ |
    ⟨hnone, found, hok, -⟩
  · refine ⟨fun e' ↦ ?_, ⟨fun _ ↦ ⟨before, e, hfirst.offends⟩, fun _ ↦ ⟨e, herror⟩⟩, fun hnone ↦ ?_⟩
    · rw [herror, Except.error.injEq]
      exact ⟨fun heq ↦ ⟨before, heq ▸ hfirst⟩, fun ⟨before', hfirst'⟩ ↦ hfirst.unique hfirst'⟩
    · exact absurd hfirst.offends (hnone before e)
  · refine ⟨fun e ↦ iff_of_false ?_ ?_, iff_of_false ?_ ?_, fun _ ↦
      ⟨_, hok, eval_ofDirectives_iff hok, form_ofDirectives hok, fun _ _ hperm ↦
        ofDirectives_of_perm hperm hok _⟩⟩
    · rw [hok]
      rintro ⟨⟩
    · rintro ⟨before, hfirst⟩
      exact hnone before e hfirst.offends
    · rw [hok]
      rintro ⟨e, ⟨⟩⟩
    · rintro ⟨before, e, hoffends⟩
      exact hnone before e hoffends

/-- Two conditions, with a directive between them that means nothing here. -/
def sampleDirectives : List Directive :=
  [⟨"include", [("if", .var "b")]⟩, ⟨"defer", []⟩, ⟨"skip", [("if", .var "a"), ("if", .null)]⟩]

theorem ofDirectives_eq_error_or_ok_arranged :
    (∀ before e, ¬ OffendsAt "name" sampleDirectives before e) ∧
    ofDirectives sampleDirectives.reverse "title" =
      .ok (.junction .all [.literal "a" true, .literal "b" false]) ∧
    ∃ before, OffendsFirst "name" [⟨"include", [("if", .boolean true)]⟩,
      ⟨"skip", [("if", .boolean false)]⟩, ⟨"skip", []⟩] before
      (.duplicateCondition "name" "true") := by
  have hok : ofDirectives sampleDirectives "name" =
      .ok (.junction .all [.literal "a" true, .literal "b" false]) := by rfl
  obtain ⟨-, hfails, hreads⟩ := ofDirectives_eq_error_or_ok sampleDirectives "name"
  have hnone : ∀ before e, ¬ OffendsAt "name" sampleDirectives before e := by
    intro before e hoffends
    obtain ⟨e, herror⟩ := hfails.mpr ⟨before, e, hoffends⟩
    rw [hok] at herror
    cases herror
  obtain ⟨c, hc, -, -, harranged⟩ := hreads hnone
  obtain rfl := Except.ok.inj (hok.symm.trans hc)
  exact ⟨hnone, harranged _ _ ((List.reverse_perm _).filter _),
    ((ofDirectives_eq_error_or_ok _ _).1 _).mp rfl⟩

end Condition
end ResponseModels
