import FilterRules.Proofs.Text.Dotted

/-!
# The closest place

The places above a path stand in the order of their lengths, so that the first one with a property on the
way up is the longest. What several paths share is the longest list of segments that each of them starts
with; it is the common ancestor of the paths unless it is empty or all of one path.
-/

namespace FilterRules

/-- A list of segments with a property, such that none with it is longer. -/
structure IsLongest (p : List String → Prop) (names : List String) : Prop where
  /-- The list has the property. -/
  holds : p names
  /-- No list with the property is longer. -/
  bound : ∀ other, p other → other.length ≤ names.length

/-- Of the fronts of one list only one is the longest with a property. -/
theorem IsLongest.unique {p : List String → Prop} {whole first second : List String}
    (hfront : ∀ names, p names → names <+: whole) (hfirst : IsLongest p first)
    (hsecond : IsLongest p second) : first = second := by
  have hbegins : first <+: second := List.prefix_of_prefix_length_le (hfront _ hfirst.holds)
    (hfront _ hsecond.holds) (hsecond.bound _ hfirst.holds)
  exact hbegins.eq_of_length_le (hfirst.bound _ hsecond.holds)

/-- In a list of ever smaller members the first one with a property is the greatest. -/
theorem find?_eq_some_iff_greatest {α : Type} {size : α → Nat} {p : α → Bool} {members : List α}
    {found : α} (h : members.Pairwise fun before behind => size behind < size before) :
    members.find? p = some found ↔ p found = true ∧ found ∈ members ∧
      ∀ member ∈ members, p member = true → size member ≤ size found := by
  induction members with
  | nil => simp
  | cons first rest ih =>
    obtain ⟨hfirst, hrest⟩ := List.pairwise_cons.mp h
    cases hp : p first with
    | true =>
      rw [List.find?_cons_of_pos hp, Option.some.injEq]
      constructor
      · rintro rfl
        refine ⟨hp, List.mem_cons_self, List.forall_mem_cons.mpr ⟨fun _ => Nat.le_refl _, ?_⟩⟩
        exact fun member hmember _ => Nat.le_of_lt (hfirst member hmember)
      · rintro ⟨_, hfound, hgreatest⟩
        rcases List.mem_cons.mp hfound with rfl | hmem
        · rfl
        · exact absurd (hgreatest first List.mem_cons_self hp) (Nat.not_le.mpr (hfirst found hmem))
    | false =>
      rw [List.find?_cons_of_neg (by simp [hp]), ih hrest, List.forall_mem_cons, List.mem_cons]
      constructor
      · rintro ⟨hfound, hmem, hgreatest⟩
        exact ⟨hfound, Or.inr hmem, fun hpos => absurd hpos (by simp [hp]), hgreatest⟩
      · rintro ⟨hfound, hmem | hmem, _, hgreatest⟩
        · exact absurd hfound (by simp [hmem, hp])
        · exact ⟨hfound, hmem, hgreatest⟩

namespace Dotted

/-- The proper fronts of a list get longer. -/
theorem pairwise_properFronts {α : Type} (names : List α) :
    (properFronts names).Pairwise fun outer inner => outer.length < inner.length := by
  induction names with
  | nil => simp [properFronts]
  | cons head rest ih =>
    cases rest with
    | nil => simp [properFronts]
    | cons next others =>
      rw [properFronts, List.pairwise_cons, List.pairwise_map]
      refine ⟨List.forall_mem_map.mpr fun front hfront => ?_, ih.imp fun h => by simpa using h⟩
      have hsome := List.length_pos_iff.mpr (mem_properFronts.mp hfront).1
      simpa using hsome

/-- The places above a path get longer. -/
theorem pairwise_ancestors (path : String) : (ancestors path).Pairwise fun outer inner =>
    (segments outer).length < (segments inner).length := by
  rw [ancestors, List.pairwise_map]
  refine (pairwise_properFronts (segments path)).imp_of_mem fun houter hinner hlength => ?_
  have hsegments {front : List String} (h : front ∈ properFronts (segments path)) :
      segments (ofSegments front) = front := by
    obtain ⟨hne, hbegins, _⟩ := mem_properFronts.mp h
    exact segments_ofSegments_of_isInfix hne hbegins.isInfix
  rwa [hsegments houter, hsegments hinner]

/-- On the way up from a place one meets the places whose segments begin its own. -/
theorem mem_cons_ancestors {place path : String} :
    place ∈ path :: (ancestors path).reverse ↔ segments place <+: segments path := by
  rw [List.mem_cons, List.mem_reverse, mem_ancestors]
  by_cases hsame : place = path
  · simp [hsame]
  · simp [hsame]

/-- The first place with a property on the way up is the longest front with it. -/
theorem find?_cons_ancestors_eq_some_iff {path root : String} {p : String → Bool} :
    (path :: (ancestors path).reverse).find? p = some root ↔
      IsLongest (fun front => front ≠ [] ∧ front <+: segments path ∧ p (ofSegments front) = true)
        (segments root) := by
  have horder : (path :: (ancestors path).reverse).Pairwise fun inner outer =>
      (segments outer).length < (segments inner).length := by
    refine List.pairwise_cons.mpr ⟨fun place hplace => ?_, List.pairwise_reverse.mpr ?_⟩
    · obtain ⟨hbegins, hne⟩ := mem_ancestors.mp (List.mem_reverse.mp hplace)
      refine Nat.lt_of_le_of_ne hbegins.length_le fun hlength => hne ?_
      exact segments_injective (hbegins.eq_of_length hlength)
    · exact pairwise_ancestors path
  rw [find?_eq_some_iff_greatest horder]
  simp only [mem_cons_ancestors]
  constructor
  · rintro ⟨hroot, hbegins, hgreatest⟩
    refine ⟨⟨segments_ne_nil root, hbegins, by rwa [ofSegments_segments]⟩, ?_⟩
    rintro front ⟨hne, hfront, hp⟩
    have hsegments := segments_ofSegments_of_isInfix hne hfront.isInfix
    have hle := hgreatest (ofSegments front) (by rwa [hsegments]) hp
    rwa [hsegments] at hle
  · rintro ⟨⟨_, hbegins, hroot⟩, hlongest⟩
    rw [ofSegments_segments] at hroot
    refine ⟨hroot, hbegins, fun place hplace hp => hlongest _ ?_⟩
    exact ⟨segments_ne_nil place, hplace, by rwa [ofSegments_segments]⟩

/-- What begins both of two lists begins what they share. -/
theorem prefix_sharedFront_iff {α : Type} [DecidableEq α] {front left right : List α} :
    front <+: sharedFront left right ↔ front <+: left ∧ front <+: right := by
  induction left generalizing front right with
  | nil => cases front <;> simp [sharedFront]
  | cons first lefts ih =>
    cases right with
    | nil => cases front <;> simp [sharedFront]
    | cons second rights =>
      cases front with
      | nil => simp
      | cons head front =>
        rw [sharedFront]
        split
        case isTrue hsame =>
          simp only [List.cons_prefix_cons, ih, hsame]
          exact and_and_left
        case isFalse hdiffer =>
          simp only [List.cons_prefix_cons, List.prefix_nil, reduceCtorEq, false_iff]
          rintro ⟨⟨rfl, _⟩, rfl, _⟩
          exact hdiffer rfl

/-- What begins each of several lists begins what they share. -/
theorem prefix_foldl_sharedFront_iff {α : Type} [DecidableEq α] {front first : List α}
    {lists : List (List α)} :
    front <+: lists.foldl sharedFront first ↔ ∀ names ∈ first :: lists, front <+: names := by
  induction lists generalizing first with
  | nil => simp
  | cons next rest ih =>
    rw [List.foldl_cons, ih, List.forall_mem_cons, prefix_sharedFront_iff]
    simp only [List.forall_mem_cons, and_assoc]

/-- A list of segments that each of some paths starts with. -/
def IsShared (paths : List String) (front : List String) : Prop :=
  ∀ path ∈ paths, front <+: segments path

/-- What is folded from the segments of some paths is the longest that they share. -/
theorem isLongest_shared (first : String) (rest : List String) :
    IsLongest (IsShared (first :: rest))
      ((rest.map segments).foldl sharedFront (segments first)) := by
  have hshared (front : List String) : IsShared (first :: rest) front ↔
      front <+: (rest.map segments).foldl sharedFront (segments first) := by
    rw [prefix_foldl_sharedFront_iff, ← List.map_cons, List.forall_mem_map]
    rfl
  exact ⟨(hshared _).mpr List.prefix_rfl, fun front hfront => ((hshared front).mp hfront).length_le⟩

/-- Some paths share a longest list of segments. -/
theorem exists_isLongest_shared {paths : List String} (h : paths ≠ []) :
    ∃ shared, IsLongest (IsShared paths) shared := by
  obtain ⟨first, rest, rfl⟩ := List.exists_cons_of_ne_nil h
  exact ⟨_, isLongest_shared first rest⟩

/-- What some paths share is determined. -/
theorem shared_unique {paths first second : List String} (h : paths ≠ [])
    (hfirst : IsLongest (IsShared paths) first) (hsecond : IsLongest (IsShared paths) second) :
    first = second := by
  obtain ⟨path, hpath⟩ := List.exists_mem_of_ne_nil paths h
  exact hfirst.unique (fun _ hnames => hnames path hpath) hsecond

/-- What some paths share are the segments of a place, unless it is nothing. -/
theorem exists_segments_eq_shared {paths shared : List String} (h : paths ≠ [])
    (hshared : IsLongest (IsShared paths) shared) (hne : shared ≠ []) :
    ∃ place, segments place = shared := by
  obtain ⟨path, hpath⟩ := List.exists_mem_of_ne_nil paths h
  exact ⟨_, segments_ofSegments_of_isInfix hne (hshared.holds path hpath).isInfix⟩

/-- The common ancestor of some paths is what they share, unless that is nothing or all of one path. -/
theorem commonAncestor?_eq_some_iff {paths : List String} {place : String} :
    commonAncestor? paths = some place ↔ paths ≠ [] ∧ IsLongest (IsShared paths) (segments place) ∧
      ∀ path ∈ paths, segments path ≠ segments place := by
  cases paths with
  | nil => simp [commonAncestor?]
  | cons first rest =>
    have hsome := List.cons_ne_nil first rest
    have hlongest := isLongest_shared first rest
    rw [commonAncestor?]
    cases hshared : (rest.map segments).foldl sharedFront (segments first) with
    | nil =>
      rw [hshared] at hlongest
      simp only [reduceCtorEq, false_iff, not_and]
      intro _ hplace
      exact absurd (shared_unique hsome hplace hlongest) (segments_ne_nil place)
    | cons name names =>
      rw [hshared] at hlongest
      have hsegments : segments (ofSegments (name :: names)) = name :: names :=
        segments_ofSegments_of_isInfix (by simp) (hlongest.holds first List.mem_cons_self).isInfix
      rw [Option.ite_none_left_eq_some, Option.some.injEq]
      constructor
      · rintro ⟨hnew, rfl⟩
        refine ⟨by simp, by rwa [hsegments], fun path hpath hsame => hnew ?_⟩
        rwa [← segments_injective hsame]
      · rintro ⟨_, hplace, hnew⟩
        have hsame : ofSegments (name :: names) = place :=
          segments_injective (hsegments.trans (shared_unique hsome hlongest hplace))
        exact ⟨fun hmem => hnew _ hmem (by rw [hsame]), hsame⟩

/-- There is a common ancestor with a property when what the paths share has it, is something, and is not
all of one path. -/
theorem exists_commonAncestor?_iff {P : List String → Prop} {paths : List String} (h : paths ≠ []) :
    (∃ place, commonAncestor? paths = some place ∧ P (segments place)) ↔
      ∃ shared, IsLongest (IsShared paths) shared ∧ shared ≠ [] ∧
        (∀ path ∈ paths, segments path ≠ shared) ∧ P shared := by
  constructor
  · rintro ⟨place, hplace, hp⟩
    obtain ⟨_, hshared, hnew⟩ := commonAncestor?_eq_some_iff.mp hplace
    exact ⟨_, hshared, segments_ne_nil place, hnew, hp⟩
  · rintro ⟨shared, hshared, hne, hnew, hp⟩
    obtain ⟨place, rfl⟩ := exists_segments_eq_shared h hshared hne
    exact ⟨place, commonAncestor?_eq_some_iff.mpr ⟨h, hshared, hnew⟩, hp⟩

/-- Any common ancestor has a property when what the paths share has it, is nothing, or is all of one
path. -/
theorem forall_commonAncestor?_iff {P : List String → Prop} {paths : List String} (h : paths ≠ []) :
    (∀ place, commonAncestor? paths = some place → P (segments place)) ↔
      ∃ shared, IsLongest (IsShared paths) shared ∧
        (shared = [] ∨ (∃ path ∈ paths, segments path = shared) ∨ P shared) := by
  constructor
  · intro hall
    obtain ⟨shared, hshared⟩ := exists_isLongest_shared h
    refine ⟨shared, hshared, or_iff_not_imp_left.mpr fun hne => or_iff_not_imp_left.mpr fun hnew => ?_⟩
    obtain ⟨place, rfl⟩ := exists_segments_eq_shared h hshared hne
    refine hall place (commonAncestor?_eq_some_iff.mpr ⟨h, hshared, fun path hpath hsame => ?_⟩)
    exact hnew ⟨path, hpath, hsame⟩
  · rintro ⟨shared, hshared, hwhy⟩ place hplace
    obtain ⟨_, hlongest, hnew⟩ := commonAncestor?_eq_some_iff.mp hplace
    obtain rfl := shared_unique h hshared hlongest
    rcases hwhy with hempty | ⟨path, hpath, hsame⟩ | hp
    · exact absurd hempty (segments_ne_nil place)
    · exact absurd hsame (hnew path hpath)
    · exact hp

/-- The common ancestor of some paths is above each of them. -/
theorem commonAncestor?_mem_ancestors {paths : List String} {shared : String}
    (h : commonAncestor? paths = some shared) : ∀ path ∈ paths, shared ∈ ancestors path := by
  obtain ⟨_, hshared, hnew⟩ := commonAncestor?_eq_some_iff.mp h
  intro path hpath
  exact mem_ancestors.mpr ⟨hshared.holds path hpath, fun hsame => hnew path hpath (by rw [hsame])⟩

/-- The common ancestor of some paths does not depend on their order, nor on how often each of them is
named. -/
theorem commonAncestor?_congr {paths others : List String}
    (h : ∀ path, path ∈ paths ↔ path ∈ others) : commonAncestor? paths = commonAncestor? others := by
  have hshared : IsShared paths = IsShared others := by
    funext front
    simp only [IsShared, h]
  have hempty : paths ≠ [] ↔ others ≠ [] := by
    simp only [ne_eq, List.eq_nil_iff_forall_not_mem, h]
  refine Option.ext fun place => ?_
  simp only [commonAncestor?_eq_some_iff, hshared, hempty, h]

/-- A single path has no common ancestor. -/
theorem commonAncestor?_singleton (path : String) : commonAncestor? [path] = none := by
  refine Option.eq_none_iff_forall_ne_some.mpr fun place hplace => ?_
  obtain ⟨_, hshared, hnew⟩ := commonAncestor?_eq_some_iff.mp hplace
  have hself : IsShared [path] (segments path) := fun other hother => by
    rw [List.mem_singleton.mp hother]
  have hbegins := hshared.holds path List.mem_cons_self
  exact hnew path List.mem_cons_self (hbegins.eq_of_length_le (hshared.bound _ hself)).symm

/-- Paths with a common ancestor are several. -/
theorem two_le_of_commonAncestor? {paths : List String} {shared : String}
    (h : commonAncestor? paths = some shared) : 2 ≤ paths.length := by
  cases paths with
  | nil => simp [commonAncestor?] at h
  | cons path rest =>
    cases rest with
    | nil => simp [commonAncestor?_singleton] at h
    | cons next others => simp

/-- Where paths have a common ancestor, none of them begins all the others. -/
theorem exists_not_prefix_of_commonAncestor? {paths : List String} {shared : String}
    (h : commonAncestor? paths = some shared) :
    ∀ lowest ∈ paths, ∃ other ∈ paths, ¬segments lowest <+: segments other := by
  obtain ⟨_, hshared, hnew⟩ := commonAncestor?_eq_some_iff.mp h
  intro lowest hlowest
  by_contra hall
  have hbegins : IsShared paths (segments lowest) := by
    simpa only [IsShared, not_exists, not_and, not_not] using hall
  have hsame := (hshared.holds lowest hlowest).eq_of_length_le (hshared.bound _ hbegins)
  exact hnew lowest hlowest hsame.symm

/-- Paths of which none begins all the others have a common ancestor as soon as there is a place above all
of them, and that place is the ancestor or above it. -/
theorem exists_commonAncestor?_of_above {paths : List String} {place : String} (h : paths ≠ [])
    (habove : ∀ path ∈ paths, place ∈ ancestors path)
    (hpart : ∀ lowest ∈ paths, ∃ other ∈ paths, ¬segments lowest <+: segments other) :
    ∃ shared, commonAncestor? paths = some shared ∧ segments place <+: segments shared := by
  obtain ⟨names, hnames⟩ := exists_isLongest_shared h
  obtain ⟨path, hpath⟩ := List.exists_mem_of_ne_nil paths h
  have hplace : IsShared paths (segments place) := fun path hpath =>
    (mem_ancestors.mp (habove path hpath)).1
  have hbegins : segments place <+: names := List.prefix_of_prefix_length_le (hplace path hpath)
    (hnames.holds path hpath) (hnames.bound _ hplace)
  have hne : names ≠ [] := fun hempty => segments_ne_nil place (by simpa [hempty] using hbegins)
  obtain ⟨shared, rfl⟩ := exists_segments_eq_shared h hnames hne
  refine ⟨shared, commonAncestor?_eq_some_iff.mpr ⟨h, hnames, fun lowest hlowest hsame => ?_⟩, hbegins⟩
  obtain ⟨other, hother, hnot⟩ := hpart lowest hlowest
  exact hnot (hsame ▸ hnames.holds other hother)

end Dotted

end FilterRules
