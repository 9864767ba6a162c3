import FilterRules.Proofs.Rule.Grammar

/-!
# The rule that is out of order

The order check reads a list from the front. As long as it finds no fault, what it has read is the
beginning of some list of the grammar: the open groups can be filled up where a connective waits for
an item, and closed one after the other. So the rule that it blames is the first one with which no
list of the grammar can go on, and a list is refused without such a rule exactly when it only ends too
early.
-/

namespace FilterRules

/-- The place of the rule that an error blames, if it blames one. -/
def CompileError.place? : CompileError → Option Nat
  | .structural _ place => place
  | .conversion _ _ _ place => some place
  | .unknownAttribute _ => none
  | .emission _ => none

/-- Some list of the grammar begins with the rules. -/
def IsViable (rules : List Rule) : Prop := ∃ rest, Derives .top (rules ++ rest)

namespace Marker

variable {stack next : List Marker} {rules : List Rule}

/-- The lowest marker of a stack, if it has one, is an opening mark. -/
def IsRooted : List Marker → Prop
  | [] => True
  | marker :: below => (below = [] → marker = .opening) ∧ IsRooted below

/-- Any marker may stand on a stack that is rooted and not empty. -/
theorem IsRooted.cons (hstack : IsRooted stack) (hne : stack ≠ []) (marker : Marker) :
    IsRooted (marker :: stack) :=
  ⟨fun hnil => absurd hnil hne, hstack⟩

/-- What is below an opening mark of a rooted stack is rooted. -/
theorem IsRooted.below {below : List Marker} (hstack : IsRooted stack)
    (hbelow : belowOpening? stack = some below) : IsRooted below := by
  induction stack with
  | nil => simp [belowOpening?] at hbelow
  | cons marker rest ih =>
    cases marker with
    | opening =>
      obtain rfl := Option.some.inj hbelow
      exact hstack.2
    | logical => exact ih hstack.2 hbelow
    | item => exact ih hstack.2 hbelow

/-- Closing a group leaves a rooted stack. -/
theorem IsRooted.close (hstack : IsRooted stack) (hclose : close? stack = some next) :
    IsRooted next := by
  cases hbelow : belowOpening? stack with
  | none => simp [close?, hbelow] at hclose
  | some below =>
    have hrooted := hstack.below hbelow
    rw [close?_of_belowOpening? hbelow] at hclose
    obtain rfl := Option.some.inj hclose
    cases below with
    | nil => exact hrooted
    | cons marker below => exact hrooted.cons (by simp) .item

/-- Every rule leaves a rooted stack. -/
theorem IsRooted.step {rule : Rule} (hstack : IsRooted stack)
    (hstep : Marker.step stack rule = some next) : IsRooted next := by
  cases rule with
  | separator mark =>
    cases mark with
    | opening =>
      rcases stack with _ | ⟨_ | _ | _, below⟩ <;>
        simp only [Marker.step, Option.some.injEq, reduceCtorEq] at hstep <;> subst hstep <;>
        exact ⟨fun _ => rfl, hstack⟩
    | closing =>
      rcases stack with _ | ⟨_ | _ | _, below⟩ <;>
        simp only [Marker.step, reduceCtorEq] at hstep <;> exact hstack.close hstep
  | logical connective =>
    rcases stack with _ | ⟨_ | _ | _, below⟩ <;>
      simp only [Marker.step, Option.some.injEq, reduceCtorEq] at hstep <;> subst hstep <;>
      exact hstack.cons (by simp) .logical
  | criteria criteria =>
    rcases stack with _ | ⟨_ | _ | _, below⟩ <;>
      simp only [Marker.step, Option.some.injEq, reduceCtorEq] at hstep <;> subst hstep <;>
      exact hstack.cons (by simp) .item

/-- A run leaves a rooted stack. -/
theorem IsRooted.foldlM (hstack : IsRooted stack) (hrun : rules.foldlM Marker.step stack = some next) :
    IsRooted next := by
  induction rules generalizing stack with
  | nil =>
    obtain rfl : stack = next := by simpa using hrun
    exact hstack
  | cons rule rest ih =>
    rw [List.foldlM_cons] at hrun
    obtain ⟨middle, hstep, hrest⟩ := Option.bind_eq_some_iff.mp hrun
    exact ih (hstack.step hstep) hrest

/-- The empty group. -/
theorem derives_emptyGroup : Derives .group [.separator .opening, .separator .closing] :=
  .group .emptyBody

/-- Something may follow every marker up to the end of its group; behind a connective that is, for
instance, an empty group. -/
theorem exists_continues (marker : Marker) : ∃ inner, Continues marker inner := by
  cases marker with
  | opening => exact ⟨[], .emptyBody⟩
  | logical => exact ⟨_, .single (.nested derives_emptyGroup)⟩
  | item => exact ⟨[], Or.inl rfl⟩

/-- Behind a group on a rooted stack, the groups around it can be closed. -/
theorem IsRooted.exists_completes_afterGroup (hstack : IsRooted stack) :
    ∃ rest, Completes (afterGroup stack) rest := by
  induction stack with
  | nil => exact ⟨[], .outside .noGroups⟩
  | cons marker below ih =>
    obtain ⟨rest, hrest⟩ := ih hstack.2
    by_cases hmarker : marker = .opening
    · subst hmarker
      have hclose : close? (.item :: .opening :: below) = some (afterGroup below) :=
        close?_of_belowOpening? rfl
      exact ⟨_, .inside (Or.inl rfl) hclose hrest⟩
    · -- The marker is not the lowest one, and the group is closed as it is without that marker.
      have hne : below ≠ [] := fun hnil => hmarker (hstack.1 hnil)
      rw [afterGroup_of_ne_nil hne] at hrest
      cases hrest with
      | inside _ hclose houter =>
        have hsame : close? (.item :: marker :: below) = close? (.item :: below) := by
          cases marker with
          | opening => exact absurd rfl hmarker
          | logical => rfl
          | item => rfl
        exact ⟨_, .inside (Or.inl rfl) (hsame.trans hclose) houter⟩

/-- Every rooted stack can be completed. -/
theorem IsRooted.exists_completes (hstack : IsRooted stack) : ∃ rest, Completes stack rest := by
  cases stack with
  | nil => exact ⟨[], .outside .noGroups⟩
  | cons marker below =>
    obtain ⟨inner, hinner⟩ := exists_continues marker
    obtain ⟨rest, hrest⟩ := hstack.exists_completes_afterGroup
    cases hrest with
    | inside _ hclose houter =>
      rw [close?_item] at hclose
      exact ⟨_, .inside hinner hclose houter⟩

/-- A run has a fault where it has gone over the rules in front and cannot go over one more. -/
theorem run_eq_error_iff {index : Nat} {error : CompileError} :
    run index stack rules = .error error ↔ ∃ place,
      error = .structural .improperOrder (some (index + place)) ∧
      (∃ reached, (rules.take place).foldlM Marker.step stack = some reached) ∧
      (rules.take (place + 1)).foldlM Marker.step stack = none := by
  induction rules generalizing index stack with
  | nil => simp [run]
  | cons rule rest ih =>
    cases hstep : Marker.step stack rule with
    | none =>
      simp only [run, hstep]
      constructor
      · rintro herror
        refine ⟨0, (Except.error.inj herror).symm, ⟨stack, rfl⟩, ?_⟩
        simp [hstep]
      · rintro ⟨place, rfl, ⟨reached, hreached⟩, _⟩
        cases place with
        | zero => rfl
        | succ place => simp [hstep] at hreached
    | some next =>
      simp only [run, hstep, ih]
      constructor
      · rintro ⟨place, rfl, ⟨reached, hreached⟩, hnone⟩
        refine ⟨place + 1, by rw [Nat.add_right_comm, Nat.add_assoc], ⟨reached, ?_⟩, ?_⟩
        · simpa [hstep] using hreached
        · simpa [hstep] using hnone
      · rintro ⟨place, rfl, ⟨reached, hreached⟩, hnone⟩
        cases place with
        | zero => simp [hstep] at hnone
        | succ place =>
          refine ⟨place, by rw [Nat.add_right_comm, Nat.add_assoc], ⟨reached, ?_⟩, ?_⟩
          · simpa [hstep] using hreached
          · simpa [hstep] using hnone

end Marker

variable {rules : List Rule}

/-- Some list of the grammar begins with the rules exactly when the order check finds no fault in
them. -/
theorem isViable_iff : IsViable rules ↔ ∃ stack, rules.foldlM Marker.step [] = some stack := by
  constructor
  · rintro ⟨rest, hlist⟩
    have hrun := Marker.derives_top_iff.mp hlist
    rw [List.foldlM_append] at hrun
    obtain ⟨stack, hfront, _⟩ := Option.bind_eq_some_iff.mp hrun
    exact ⟨stack, hfront⟩
  · rintro ⟨stack, hrun⟩
    have hempty : Marker.IsRooted [] := trivial
    obtain ⟨rest, hrest⟩ := (hempty.foldlM hrun).exists_completes
    cases Marker.completes_append hrun hrest with
    | outside hrules => exact ⟨rest, hrules⟩

/-- No list of the grammar begins with rules that the order check cannot go over. -/
theorem not_isViable_iff : ¬ IsViable rules ↔ rules.foldlM Marker.step [] = none := by
  rw [isViable_iff, Option.eq_none_iff_forall_ne_some, not_exists]

/-- The order check refuses a list for a rule that it cannot go over, or for groups that are open at
the end. -/
theorem checkOrder_eq_error_iff {error : CompileError} :
    checkOrder rules = .error error ↔ Marker.run 0 [] rules = .error error ∨
      error = .structural .improperOrder none ∧
        ∃ marker below, Marker.run 0 [] rules = .ok (marker :: below) := by
  unfold checkOrder
  split
  case h_1 found hrun => simp [hrun]
  case h_2 hrun => simp [hrun]
  case h_3 marker below hrun => simp [hrun, eq_comm]

/-- A rule is blamed when some list of the grammar begins with the rules in front of it and none begins
with these and the rule itself. -/
theorem checkOrder_eq_error_some_iff {index : Nat} :
    checkOrder rules = .error (.structural .improperOrder (some index)) ↔
      IsViable (rules.take index) ∧ ¬ IsViable (rules.take (index + 1)) := by
  rw [checkOrder_eq_error_iff, Marker.run_eq_error_iff, isViable_iff, not_isViable_iff]
  constructor
  · rintro (⟨place, herror, hfront, hnone⟩ | ⟨herror, _⟩)
    · obtain rfl : index = place := by simpa using herror
      exact ⟨hfront, hnone⟩
    · simp at herror
  · rintro ⟨hfront, hnone⟩
    exact Or.inl ⟨index, by rw [Nat.zero_add], hfront, hnone⟩

/-- No rule is blamed when the list is not one of the grammar but only the beginning of one. -/
theorem checkOrder_eq_error_none_iff :
    checkOrder rules = .error (.structural .improperOrder none) ↔
      ¬ Derives .top rules ∧ ∃ rest ≠ [], Derives .top (rules ++ rest) := by
  constructor
  · intro herror
    rcases checkOrder_eq_error_iff.mp herror with hfault | ⟨_, marker, below, hrun⟩
    · obtain ⟨place, hplace, _⟩ := Marker.run_eq_error_iff.mp hfault
      simp at hplace
    · have hstack : rules.foldlM Marker.step [] = some (marker :: below) :=
        (Marker.run_eq_ok_iff 0).mp hrun
      have hopen : ¬ Derives .top rules := by simp [Marker.derives_top_iff, hstack]
      obtain ⟨rest, hlist⟩ : IsViable rules := isViable_iff.mpr ⟨_, hstack⟩
      refine ⟨hopen, rest, ?_, hlist⟩
      rintro rfl
      rw [List.append_nil] at hlist
      exact hopen hlist
  · rintro ⟨hopen, rest, _, hlist⟩
    obtain ⟨stack, hstack⟩ := isViable_iff.mp ⟨rest, hlist⟩
    cases stack with
    | nil => exact absurd (Marker.derives_top_iff.mpr hstack) hopen
    | cons marker below =>
      have hrun := (Marker.run_eq_ok_iff 0).mpr hstack
      exact checkOrder_eq_error_iff.mpr (Or.inr ⟨rfl, marker, below, hrun⟩)

/-- The order check refuses a list for nothing but its order. -/
theorem exists_place_of_checkOrder {error : CompileError} (h : checkOrder rules = .error error) :
    ∃ place, error = .structural .improperOrder place := by
  rcases checkOrder_eq_error_iff.mp h with hfault | ⟨herror, _⟩
  · obtain ⟨place, herror, _⟩ := Marker.run_eq_error_iff.mp hfault
    exact ⟨_, herror⟩
  · exact ⟨none, herror⟩

/-- The order check accepts the lists of the grammar. It blames the first rule with which no list of the
grammar goes on behind the rules in front of it, and it refuses a list without blaming a rule when the
list is not one of the grammar but such a list goes on behind it. -/
theorem checkOrder_blames (rules : List Rule) :
    (checkOrder rules = .ok () ↔ Derives .top rules) ∧
    (∀ index, (∃ error, checkOrder rules = .error error ∧ error.place? = some index) ↔
      IsViable (rules.take index) ∧ ¬ IsViable (rules.take (index + 1))) ∧
    ((∃ error, checkOrder rules = .error error ∧ error.place? = none) ↔
      ¬ Derives .top rules ∧ ∃ rest ≠ [], Derives .top (rules ++ rest)) := by
  have hplace : ∀ place, (∃ error, checkOrder rules = .error error ∧ error.place? = place) ↔
      checkOrder rules = .error (.structural .improperOrder place) := by
    intro place
    constructor
    · rintro ⟨error, herror, hfound⟩
      obtain ⟨found, rfl⟩ := exists_place_of_checkOrder herror
      obtain rfl : found = place := hfound
      exact herror
    · intro herror
      exact ⟨_, herror, rfl⟩
  refine ⟨checkOrder_eq_ok_iff.trans Marker.derives_top_iff.symm, ?_, ?_⟩
  · intro index
    rw [hplace, checkOrder_eq_error_some_iff]
  · rw [hplace, checkOrder_eq_error_none_iff]

end FilterRules
