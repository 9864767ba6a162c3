import FilterRules.Proofs.Text.Closest
import FilterRules.Schema.Basic

/-!
# Which places are grouping roots

The grouping root of some paths is above each of them: it is the longest front of what they share that
the schema declares as a list. Where no declared attribute counts as a list of a kind, no paths at all
share a grouping root of that kind.
-/

namespace FilterRules.Schema

/-- Whether the schema declares a list of a kind at the place with the given segments. -/
def HasListAt (schema : Schema) (kind : RootKind) (front : List String) : Prop :=
  ∃ declared, schema.lookup (Dotted.ofSegments front) = some declared ∧ kind.accepts declared = true

/-- Among the places that a search meets, a list is what the schema declares as one. -/
theorem hasListAt_iff {schema : Schema} {kind : RootKind} {front : List String} :
    schema.HasListAt kind front ↔
      (schema.lookup (Dotted.ofSegments front)).any kind.accepts = true := by
  rw [HasListAt, Option.any_eq_true]

section Closest

variable {schema : Schema} {kind : RootKind} {paths : List String}

/-- Some paths have a grouping root when a front of their common ancestor is a list, and it is the longest
of them. -/
theorem groupingRoot?_eq_some_iff {root : String} : schema.groupingRoot? kind paths = some root ↔
    2 ≤ paths.length ∧ ∃ shared, Dotted.commonAncestor? paths = some shared ∧
      IsLongest (fun front => front ≠ [] ∧ front <+: Dotted.segments shared ∧
        schema.HasListAt kind front) (Dotted.segments root) := by
  rw [groupingRoot?, Option.ite_none_left_eq_some, Nat.not_lt]
  refine and_congr_right fun _ => ?_
  cases Dotted.commonAncestor? paths with
  | none => simp
  | some shared =>
    simp only [Dotted.find?_cons_ancestors_eq_some_iff, ← hasListAt_iff, Option.some.injEq,
      exists_eq_left']

/-- Several paths have no grouping root when they have no common ancestor, or none of its fronts is a
list. -/
theorem groupingRoot?_eq_none_iff : schema.groupingRoot? kind paths = none ↔ paths.length < 2 ∨
    ∀ shared, Dotted.commonAncestor? paths = some shared → ∀ front, front ≠ [] →
      front <+: Dotted.segments shared → ¬schema.HasListAt kind front := by
  rw [groupingRoot?]
  by_cases hfew : paths.length < 2
  · simp [hfew]
  · rw [if_neg hfew]
    simp only [hfew, false_or]
    cases Dotted.commonAncestor? paths with
    | none => simp
    | some shared =>
      simp only [List.find?_eq_none, Dotted.mem_cons_ancestors, Option.some.injEq, forall_eq']
      constructor
      · intro hnone front hne hfront hlist
        have hsegments := Dotted.segments_ofSegments_of_isInfix hne hfront.isInfix
        exact hnone (Dotted.ofSegments front) (by rwa [hsegments]) (hasListAt_iff.mp hlist)
      · intro hnone place hplace hlist
        refine hnone _ (Dotted.segments_ne_nil place) hplace (hasListAt_iff.mpr ?_)
        rwa [Dotted.ofSegments_segments]

/-- A grouping root is above each of its paths. -/
theorem groupingRoot?_mem_ancestors {root : String}
    (h : schema.groupingRoot? kind paths = some root) :
    ∀ path ∈ paths, root ∈ Dotted.ancestors path := by
  obtain ⟨_, shared, hshared, hroot⟩ := groupingRoot?_eq_some_iff.mp h
  intro path hpath
  have habove := Dotted.commonAncestor?_mem_ancestors hshared path hpath
  rcases List.mem_cons.mp (Dotted.mem_cons_ancestors.mpr hroot.holds.2.1) with rfl | hmem
  · exact habove
  · exact Dotted.mem_ancestors_trans (List.mem_reverse.mp hmem) habove

/-- A grouping root counts as a list. -/
theorem accepts_of_groupingRoot? {root : String}
    (h : schema.groupingRoot? kind paths = some root) :
    (schema.lookup root).any kind.accepts = true := by
  obtain ⟨_, shared, _, hroot⟩ := groupingRoot?_eq_some_iff.mp h
  have hlist := hasListAt_iff.mp hroot.holds.2.2
  rwa [Dotted.ofSegments_segments] at hlist

end Closest

/-- The grouping root of some paths is the closest list above what they share. There have to be two paths
that share a segment, and none of them may be all that is shared; then the root is the longest front of
the shared segments that is a list of the kind. In any other case there is none. -/
theorem groupingRoot?_closest (schema : Schema) (kind : RootKind) (paths : List String) :
    (∀ root, schema.groupingRoot? kind paths = some root ↔ 2 ≤ paths.length ∧
      ∃ shared, IsLongest (Dotted.IsShared paths) shared ∧ shared ≠ [] ∧
        (∀ path ∈ paths, Dotted.segments path ≠ shared) ∧
        IsLongest (fun front => front ≠ [] ∧ front <+: shared ∧ schema.HasListAt kind front)
          (Dotted.segments root)) ∧
    (schema.groupingRoot? kind paths = none ↔ paths.length < 2 ∨
      ∃ shared, IsLongest (Dotted.IsShared paths) shared ∧ (shared = [] ∨
        (∃ path ∈ paths, Dotted.segments path = shared) ∨
        ∀ front, front ≠ [] → front <+: shared → ¬schema.HasListAt kind front)) ∧
    (∀ root, schema.groupingRoot? kind paths = some root → ∀ path ∈ paths,
      Dotted.segments root <+: Dotted.segments path ∧
        Dotted.segments root ≠ Dotted.segments path) := by
  have hsome (hmany : 2 ≤ paths.length) : paths ≠ [] := List.length_pos_iff.mp (by omega)
  refine ⟨fun root => ?_, ?_, fun root hroot path hpath => ?_⟩
  · rw [groupingRoot?_eq_some_iff]
    exact and_congr_right fun hmany => Dotted.exists_commonAncestor?_iff
      (P := fun shared => IsLongest (fun front => front ≠ [] ∧ front <+: shared ∧
        schema.HasListAt kind front) (Dotted.segments root)) (hsome hmany)
  · rw [groupingRoot?_eq_none_iff]
    by_cases hfew : paths.length < 2
    · simp [hfew]
    · simp only [hfew, false_or]
      exact Dotted.forall_commonAncestor?_iff
        (P := fun shared => ∀ front, front ≠ [] → front <+: shared → ¬schema.HasListAt kind front)
        (hsome (Nat.not_lt.mp hfew))
  · obtain ⟨hbegins, hne⟩ := Dotted.mem_ancestors.mp (groupingRoot?_mem_ancestors hroot path hpath)
    exact ⟨hbegins, fun hsame => hne (Dotted.segments_injective hsame)⟩

/-- Segments are compared whole: the prices of a list and of a listing share the prices only. -/
theorem groupingRoot?_closest_prices :
    let schema : Schema := ⟨[("shop", .nested), ("shop.prices", .nested)]⟩
    let paths := ["shop.prices.list.amount", "shop.prices.list.currency", "shop.prices.listing"]
    schema.groupingRoot? .nested paths = some "shop.prices" ∧
      ∀ path ∈ paths, ["shop", "prices"] <+: Dotted.segments path ∧
        ["shop", "prices"] ≠ Dotted.segments path := by
  intro schema paths
  have hroot : schema.groupingRoot? .nested paths = some "shop.prices" := by cbv
  have hsegments : Dotted.segments "shop.prices" = ["shop", "prices"] := by cbv
  have habove := (groupingRoot?_closest schema .nested paths).2.2 "shop.prices" hroot
  rw [hsegments] at habove
  exact ⟨hroot, habove⟩

/-- The grouping root of some paths does not depend on their order, nor on how often each of them is
named. -/
theorem groupingRoot?_congr (schema : Schema) (kind : RootKind) {paths others : List String}
    (h : ∀ path, path ∈ paths ↔ path ∈ others) :
    schema.groupingRoot? kind paths = schema.groupingRoot? kind others := by
  have hmany (paths : List String) (root : String) : schema.groupingRoot? kind paths = some root ↔
      ∃ shared, Dotted.commonAncestor? paths = some shared ∧
        IsLongest (fun front => front ≠ [] ∧ front <+: Dotted.segments shared ∧
          schema.HasListAt kind front) (Dotted.segments root) := by
    rw [groupingRoot?_eq_some_iff, and_iff_right_of_imp]
    rintro ⟨shared, hshared, _⟩
    exact Dotted.two_le_of_commonAncestor? hshared
  refine Option.ext fun root => ?_
  rw [hmany, hmany, Dotted.commonAncestor?_congr h]

/-- The grouping root of some paths does not depend on their order. -/
theorem groupingRoot?_perm (schema : Schema) (kind : RootKind) {paths others : List String}
    (h : paths.Perm others) : schema.groupingRoot? kind paths = schema.groupingRoot? kind others :=
  schema.groupingRoot?_congr kind fun _ => h.mem_iff

/-- Some paths have a grouping root when none of them begins all the others and there is a list above all
of them. -/
theorem exists_groupingRoot?_iff {schema : Schema} {kind : RootKind} {paths : List String}
    (h : paths ≠ []) : (∃ root, schema.groupingRoot? kind paths = some root) ↔
      (∀ lowest ∈ paths, ∃ other ∈ paths, ¬Dotted.segments lowest <+: Dotted.segments other) ∧
        ∃ place, (∀ path ∈ paths, place ∈ Dotted.ancestors path) ∧
          (schema.lookup place).any kind.accepts = true := by
  constructor
  · rintro ⟨root, hroot⟩
    obtain ⟨_, shared, hshared, _⟩ := groupingRoot?_eq_some_iff.mp hroot
    exact ⟨Dotted.exists_not_prefix_of_commonAncestor? hshared,
      root, groupingRoot?_mem_ancestors hroot, accepts_of_groupingRoot? hroot⟩
  · rintro ⟨hpart, place, habove, hlist⟩
    obtain ⟨shared, hshared, hbegins⟩ := Dotted.exists_commonAncestor?_of_above h habove hpart
    refine Option.ne_none_iff_exists'.mp fun hnone => ?_
    rcases groupingRoot?_eq_none_iff.mp hnone with hfew | hlists
    · exact absurd (Dotted.two_le_of_commonAncestor? hshared) (Nat.not_le.mpr hfew)
    · refine hlists shared hshared _ (Dotted.segments_ne_nil place) hbegins (hasListAt_iff.mpr ?_)
      rwa [Dotted.ofSegments_segments]

/-- A declared type stands among the entries of its schema. -/
theorem mem_of_lookup {entries : List (String × AttributeType)} {path : String}
    {declared : AttributeType} (h : Schema.lookup ⟨entries⟩ path = some declared) :
    (path, declared) ∈ entries := by
  induction entries with
  | nil => simp [lookup, Dictionary.find?] at h
  | cons entry entries ih =>
    obtain ⟨place, found⟩ := entry
    simp only [lookup, Dictionary.find?] at h ih
    split at h
    case isTrue hsame => simp [hsame, Option.some.inj h]
    case isFalse => exact List.mem_cons_of_mem _ (ih h)

/-- A schema in which no attribute counts as a list of the given kind. -/
def Lacks (schema : Schema) (kind : RootKind) : Prop :=
  ∀ path declared, schema.lookup path = some declared → kind.accepts declared = false

namespace Lacks

variable {schema : Schema} {kind : RootKind}

/-- A schema lacks a kind of list when none of its entries is one. -/
theorem of_entries {entries : List (String × AttributeType)}
    (h : ∀ entry ∈ entries, kind.accepts entry.2 = false) : Schema.Lacks ⟨entries⟩ kind :=
  fun _ _ hlookup => h _ (mem_of_lookup hlookup)

/-- No place in a schema is a list of a kind that the schema lacks. -/
theorem any_accepts (h : schema.Lacks kind) (path : String) :
    (schema.lookup path).any kind.accepts = false := by
  cases hlookup : schema.lookup path with
  | none => rfl
  | some declared => exact h path declared hlookup

/-- No paths share a list of a kind that the schema lacks. -/
theorem groupingRoot?_eq_none (h : schema.Lacks kind) (paths : List String) :
    schema.groupingRoot? kind paths = none := by
  rw [groupingRoot?]
  split
  · rfl
  · split
    · rfl
    · rw [List.find?_eq_none]
      intro place _
      rw [h.any_accepts place]
      exact Bool.false_ne_true

end Lacks

/-- A schema in which every list is one of sub-documents. -/
def ListsAreNested (schema : Schema) : Prop :=
  ∀ path declared, schema.lookup path = some declared → declared.isArray = true →
    declared.kind = .object

namespace ListsAreNested

/-- The lists of a schema are nested when those among its entries are. -/
theorem of_entries {entries : List (String × AttributeType)}
    (h : ∀ entry ∈ entries, entry.2.isArray = true → entry.2.kind = .object) :
    ListsAreNested ⟨entries⟩ :=
  fun _ _ hlookup => h _ (mem_of_lookup hlookup)

/-- Where all lists are nested, paths share a list exactly as a nested field. -/
theorem groupingRoot?_eq {schema : Schema} (h : schema.ListsAreNested) (paths : List String) :
    schema.groupingRoot? .array paths = schema.groupingRoot? .nested paths := by
  have haccepts : (fun place => (schema.lookup place).any RootKind.array.accepts) =
      fun place => (schema.lookup place).any RootKind.nested.accepts := by
    funext place
    cases hlookup : schema.lookup place with
    | none => rfl
    | some declared =>
      have hkind := h place declared hlookup
      cases harray : declared.isArray <;>
        simp_all [RootKind.accepts, AttributeType.isNested]
  rw [groupingRoot?, groupingRoot?, haccepts]

end ListsAreNested

end FilterRules.Schema
