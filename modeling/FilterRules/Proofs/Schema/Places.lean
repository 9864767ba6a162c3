import FilterRules.Proofs.Schema.Grouping

/-!
# The places above a path

The nested fields above a path are those above any nested field on the way, that field, and those
between the field and the path. A grouping root is such a field on the way to each of its paths. A key
of the elements of a nested field has nothing between the field and itself.

What is read off a schema about a path is decided by the places above the path: the nested fields around
it, and the list that it shares with other paths. Two schemas that declare the same at those places give
the same answers, whatever they declare elsewhere.
-/

namespace FilterRules.Schema

variable {schema other : Schema} {place path root : String} {paths places : List String}

/-- Whether a place is a nested field. -/
def isNestedAt (schema : Schema) (place : String) : Bool := (schema.lookup place).any (·.isNested)

/-- The nested fields between a place and a path below it, outermost first. -/
def nestedBetween (schema : Schema) (place path : String) : List String :=
  (schema.nestedAncestors path).filter (Dotted.isBelow · place)

/-- The nested fields above a path, divided at one of them. -/
theorem nestedAncestors_eq_append (habove : place ∈ Dotted.ancestors path)
    (hnested : schema.isNestedAt place = true) :
    schema.nestedAncestors path =
      schema.nestedAncestors place ++ place :: schema.nestedBetween place path := by
  have hdivided := congrArg (List.filter schema.isNestedAt) (Dotted.ancestors_eq_append habove)
  rw [List.filter_append, List.filter_cons, if_pos hnested, List.filter_comm] at hdivided
  exact hdivided

/-- The nested fields above a path, divided at one that its first segments lead to. -/
theorem nestedAncestors_of_segments {rest : List String} (hne : rest ≠ [])
    (h : Dotted.segments path = Dotted.segments place ++ rest)
    (hnested : schema.isNestedAt place = true) :
    schema.nestedAncestors path =
      schema.nestedAncestors place ++ place :: schema.nestedBetween place path :=
  nestedAncestors_eq_append (Dotted.mem_ancestors_of_segments hne h) hnested

/-- Nothing is between a place and a path that is one segment longer. -/
theorem nestedBetween_eq_nil {name : String}
    (h : Dotted.segments path = Dotted.segments place ++ [name]) :
    schema.nestedBetween place path = [] := by
  have hempty : (Dotted.ancestors path).filter (Dotted.isBelow · place) = [] :=
    Dotted.filter_isBelow_ancestors (List.cons_ne_nil name []) h
  rw [nestedBetween, nestedAncestors, List.filter_comm, hempty, List.filter_nil]

/-- There is no nested field between a place and a path when no place between them is one. -/
theorem nestedBetween_eq_nil_iff :
    schema.nestedBetween place path = [] ↔
      ∀ inner ∈ Dotted.ancestors path, Dotted.isBelow inner place = true →
        schema.isNestedAt inner = false := by
  simp only [nestedBetween, nestedAncestors, List.filter_eq_nil_iff, List.mem_filter, isNestedAt]
  grind

/-- The nested fields above the paths of a group, divided at the grouping root. -/
theorem nestedAncestors_of_groupingRoot? (h : schema.groupingRoot? .nested paths = some root)
    (hpath : path ∈ paths) :
    schema.nestedAncestors path =
      schema.nestedAncestors root ++ root :: schema.nestedBetween root path :=
  nestedAncestors_eq_append (groupingRoot?_mem_ancestors h path hpath) (accepts_of_groupingRoot? h)

/-- Whether two schemas declare the same types at some places. -/
def AgreeOn (schema other : Schema) (places : List String) : Prop :=
  ∀ place ∈ places, schema.lookup place = other.lookup place

instance (schema other : Schema) (places : List String) : Decidable (schema.AgreeOn other places) :=
  inferInstanceAs (Decidable (∀ place ∈ places, schema.lookup place = other.lookup place))

namespace AgreeOn

/-- Schemas that agree on some places agree on fewer. -/
theorem mono (h : schema.AgreeOn other places) {fewer : List String} (hsubset : fewer ⊆ places) :
    schema.AgreeOn other fewer :=
  fun place hplace => h place (hsubset hplace)

/-- Schemas that agree above a path agree above each place above it. -/
theorem above (h : schema.AgreeOn other (Dotted.ancestors path))
    (hplace : place ∈ Dotted.ancestors path) : schema.AgreeOn other (Dotted.ancestors place) :=
  h.mono fun _ houter => Dotted.mem_ancestors_trans houter hplace

/-- The nested fields above a path are the same. -/
theorem nestedAncestors_eq (h : schema.AgreeOn other (Dotted.ancestors path)) :
    schema.nestedAncestors path = other.nestedAncestors path :=
  List.filter_congr fun place hplace => by rw [h place hplace]

/-- The list that some paths share is the same. -/
theorem groupingRoot?_eq (h : ∀ path ∈ paths, schema.AgreeOn other (Dotted.ancestors path))
    (kind : RootKind) : schema.groupingRoot? kind paths = other.groupingRoot? kind paths := by
  rw [groupingRoot?, groupingRoot?]
  cases paths with
  | nil => rfl
  | cons first rest =>
    cases hshared : Dotted.commonAncestor? (first :: rest) with
    | none => rfl
    | some shared =>
      have hfirst := h first List.mem_cons_self
      have habove := Dotted.commonAncestor?_mem_ancestors hshared first List.mem_cons_self
      have hsame : ∀ place ∈ shared :: (Dotted.ancestors shared).reverse,
          schema.lookup place = other.lookup place := by
        simpa using ⟨hfirst shared habove, hfirst.above habove⟩
      simp only [← List.head?_filter]
      rw [List.filter_congr fun place hplace => by rw [hsame place hplace]]

/-- Schemas that agree above some paths agree above the list that the paths share. -/
theorem above_groupingRoot {kind : RootKind}
    (h : ∀ path ∈ paths, schema.AgreeOn other (Dotted.ancestors path))
    (hroot : schema.groupingRoot? kind paths = some root) :
    schema.AgreeOn other (Dotted.ancestors root) := by
  obtain ⟨path, hpath⟩ : ∃ path, path ∈ paths := by
    refine List.exists_mem_of_ne_nil paths ?_
    rintro rfl
    simp [groupingRoot?] at hroot
  exact (h path hpath).above (groupingRoot?_mem_ancestors hroot path hpath)

end AgreeOn

/-- A declaration changes nothing at other places. -/
theorem agreeOn_insert (schema : Schema) (h : place ∉ places)
    (declared : AttributeType) : schema.AgreeOn (schema.insert place declared) places :=
  fun _ hasked => (schema.lookup_insert_of_ne (ne_of_mem_of_not_mem hasked h) declared).symm

end FilterRules.Schema
