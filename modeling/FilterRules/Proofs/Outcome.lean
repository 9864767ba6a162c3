import Mathlib.Data.List.Forall2

/-!
# Computations that may fail

How a computation goes on behind a result or a fault. A sequence of two computations has a result
exactly when both have one, and a fault of the first is a fault of the sequence.
-/

namespace FilterRules.Outcome

variable {ε α β γ δ : Type}

/-- A computation goes on with the result of its first part. -/
@[simp] theorem ok_bind (a : α) (f : α → Except ε β) : (Except.ok a >>= f) = f a := rfl

/-- A fault of the first part is a fault of the whole. -/
@[simp] theorem error_bind (e : ε) (f : α → Except ε β) :
    ((Except.error e : Except ε α) >>= f) = .error e := rfl

/-- The computation that only gives a result. -/
@[simp] theorem pure_eq_ok (a : α) : (pure a : Except ε α) = .ok a := rfl

/-- The computation that only gives a fault. -/
@[simp] theorem throw_eq_error (e : ε) : (throw e : Except ε α) = .error e := rfl

/-- A sequence has a result when both of its parts have one. -/
theorem bind_eq_ok_iff {x : Except ε α} {f : α → Except ε β} {b : β} :
    (x >>= f) = .ok b ↔ ∃ a, x = .ok a ∧ f a = .ok b := by
  cases x <;> simp

/-- A sequence has the fault of its first part, or of its second one behind a result. -/
theorem bind_eq_error_iff {x : Except ε α} {f : α → Except ε β} {e : ε} :
    (x >>= f) = .error e ↔ x = .error e ∨ ∃ a, x = .ok a ∧ f a = .error e := by
  cases x <;> simp

/-- A changed result comes from a result. -/
theorem map_eq_ok_iff {x : Except ε α} {f : α → β} {b : β} :
    x.map f = .ok b ↔ ∃ a, x = .ok a ∧ f a = b := by
  cases x <;> simp [Except.map]

/-- A fault is that of the computation whose result is changed. -/
theorem map_eq_error_iff {x : Except ε α} {f : α → β} {e : ε} :
    x.map f = .error e ↔ x = .error e := by
  cases x <;> simp [Except.map]

/-- A computation that goes through a list has the results of the parts, if each part has one. -/
theorem eq_ok_iff_forall₂ (part : α → Except ε β) (whole : List α → Except ε (List β))
    (hnil : whole [] = .ok [])
    (hcons : ∀ first rest, whole (first :: rest) = (do
      let result ← part first
      let results ← whole rest
      return result :: results)) {list : List α} {results : List β} :
    whole list = .ok results ↔ List.Forall₂ (fun a b => part a = .ok b) list results := by
  induction list generalizing results with
  | nil => simp [hnil, eq_comm]
  | cons first rest ih =>
    simp only [hcons, bind_eq_ok_iff, pure_eq_ok, Except.ok.injEq, List.forall₂_cons_left_iff, ih]
    constructor
    · rintro ⟨result, hresult, others, hothers, rfl⟩
      exact ⟨result, others, hresult, hothers, rfl⟩
    · rintro ⟨result, others, hresult, hothers, rfl⟩
      exact ⟨result, hresult, others, hothers, rfl⟩

/-- Reading a list item by item gives what the items are read as. -/
theorem mapM_eq_some_iff {part : α → Option β} {list : List α} {results : List β} :
    list.mapM part = some results ↔ List.Forall₂ (fun a b => part a = some b) list results := by
  induction list generalizing results with
  | nil => simp [eq_comm]
  | cons first rest ih =>
    rw [List.forall₂_cons_left_iff, List.mapM_cons]
    simp only [Option.bind_eq_bind, Option.bind_eq_some_iff, Option.pure_def, Option.some.injEq]
    constructor
    · rintro ⟨result, hresult, others, hothers, rfl⟩
      exact ⟨result, others, hresult, ih.mp hothers, rfl⟩
    · rintro ⟨result, others, hresult, hothers, rfl⟩
      exact ⟨result, hresult, others, ih.mpr hothers, rfl⟩

/-- A list that is written item by item is read back when each of its items is. -/
theorem mapM_map_eq_some_iff {write : β → α} {read : α → Option β} {list : List β} :
    (list.map write).mapM read = some list ↔ ∀ item ∈ list, read (write item) = some item := by
  rw [mapM_eq_some_iff, List.forall₂_map_left_iff, List.forall₂_same]

/-- A property of whatever comes out of one part is one of all that comes out of the parts of a list. -/
theorem forall_mem_of_forall₂ {R : α → β → Prop} {p : β → Prop} {parts : List α} {results : List β}
    (h : List.Forall₂ R parts results) (hresult : ∀ a b, R a b → p b) : ∀ b ∈ results, p b := by
  induction h with
  | nil => simp
  | cons hfirst _ ih => exact List.forall_mem_cons.mpr ⟨hresult _ _ hfirst, ih⟩

/-- Every part of a list has something that comes out of it. -/
theorem exists_mem_of_forall₂ {R : α → β → Prop} {parts : List α} {results : List β} {part : α}
    (h : List.Forall₂ R parts results) (hpart : part ∈ parts) : ∃ result ∈ results, R part result := by
  induction h with
  | nil => simp at hpart
  | cons hfirst _ ih =>
    rcases List.mem_cons.mp hpart with rfl | hrest
    · exact ⟨_, List.mem_cons_self, hfirst⟩
    · obtain ⟨result, hresult, hrelated⟩ := ih hrest
      exact ⟨result, List.mem_cons_of_mem _ hresult, hrelated⟩

/-- What comes out of two lists of parts, one behind the other, comes in two such lists. -/
theorem exists_append_of_forall₂ {R : α → β → Prop} {front back : List α} {results : List β}
    (h : List.Forall₂ R (front ++ back) results) :
    ∃ first second, results = first ++ second ∧ List.Forall₂ R front first ∧
      List.Forall₂ R back second := by
  have hfront := List.forall₂_take front.length h
  have hback := List.forall₂_drop front.length h
  rw [List.take_left] at hfront
  rw [List.drop_left] at hback
  exact ⟨_, _, (List.take_append_drop _ _).symm, hfront, hback⟩

/-- Two computations that have the same fault, or results that are related. -/
inductive Related (related : α → β → Prop) : Except ε α → Except ε β → Prop
  /-- Related results. -/
  | ok {a : α} {b : β} (h : related a b) : Related related (.ok a) (.ok b)
  /-- The same fault. -/
  | error (e : ε) : Related related (.error e) (.error e)

/-- What is related to a fault is that fault. -/
theorem Related.eq_error {related : α → β → Prop} {e : ε} {y : Except ε β}
    (h : Related related (.error e) y) : y = .error e := by
  cases h
  rfl

/-- What is related to a result has a related one. -/
theorem Related.exists_ok {related : α → β → Prop} {a : α} {y : Except ε β}
    (h : Related related (.ok a) y) : ∃ b, y = .ok b ∧ related a b := by
  cases h with
  | ok hab => exact ⟨_, rfl, hab⟩

/-- Computations are the same when only the same results are related. -/
theorem Related.eq {related : α → α → Prop} {x y : Except ε α} (h : Related related x y)
    (hsame : ∀ a b, related a b → a = b) : x = y := by
  cases h with
  | ok hab => rw [hsame _ _ hab]
  | error e => rfl

/-- Related computations stay related when they go on in related ways. -/
theorem Related.bind {related : α → β → Prop} {result : γ → δ → Prop} {x : Except ε α}
    {y : Except ε β} {f : α → Except ε γ} {g : β → Except ε δ} (h : Related related x y)
    (hnext : ∀ a b, related a b → Related result (f a) (g b)) :
    Related result (x >>= f) (y >>= g) := by
  cases h with
  | ok hab => exact hnext _ _ hab
  | error e => exact .error e

/-- Related computations stay related when their results are changed in related ways. -/
theorem Related.map {related : α → β → Prop} {result : γ → δ → Prop} {x : Except ε α}
    {y : Except ε β} {f : α → γ} {g : β → δ} (h : Related related x y)
    (hnext : ∀ a b, related a b → result (f a) (g b)) : Related result (x.map f) (y.map g) := by
  cases h with
  | ok hab => exact .ok (hnext _ _ hab)
  | error e => exact .error e

/-- Two computations have results that are related, or neither has one, if every result of the first has
a related one of the second and the second has none without the first. -/
theorem rel_toOption {related : α → β → Prop} {x : Except ε α} {y : Except ε β}
    (hresult : ∀ a, x = .ok a → ∃ b, y = .ok b ∧ related a b)
    (hback : ∀ b, y = .ok b → ∃ a, x = .ok a) : Option.Rel related x.toOption y.toOption := by
  cases x with
  | ok a =>
    obtain ⟨b, rfl, hab⟩ := hresult a rfl
    exact .some hab
  | error e =>
    cases y with
    | ok b =>
      obtain ⟨a, ha⟩ := hback b rfl
      simp at ha
    | error e' => exact .none

end FilterRules.Outcome
