import FilterRules.Text.Dotted
import Mathlib.Data.List.Infix

/-!
# Dotted paths as lists of segments

Splitting undoes joining as long as no piece holds the mark, so that a path and its segments are known
from each other. A place is above a path when its segments are the first ones of the path, and not all
of them; what the path is seen as from there are the segments that are left.
-/

namespace FilterRules

namespace Pieces

variable {mark : Char}

/-- A text without a mark is its only piece. -/
theorem split_of_not_mem {piece : List Char} (h : mark ∉ piece) : split mark piece = [piece] := by
  induction piece with
  | nil => rfl
  | cons c rest ih =>
    obtain ⟨hne, hrest⟩ := not_or.mp (List.mem_cons.not.mp h)
    have hc : c ≠ mark := fun heq => hne heq.symm
    simp [split, hc, ih hrest]

/-- The first mark ends the first piece. -/
theorem split_append {piece : List Char} (h : mark ∉ piece) (rest : List Char) :
    split mark (piece ++ mark :: rest) = piece :: split mark rest := by
  induction piece with
  | nil => simp [split]
  | cons c front ih =>
    obtain ⟨hne, hfront⟩ := not_or.mp (List.mem_cons.not.mp h)
    have hc : c ≠ mark := fun heq => hne heq.symm
    simp [split, hc, ih hfront]

/-- Splitting undoes joining when no piece holds the mark. -/
theorem split_join {pieces : List (List Char)} (hne : pieces ≠ [])
    (h : ∀ piece ∈ pieces, mark ∉ piece) : split mark (join mark pieces) = pieces := by
  induction pieces with
  | nil => exact absurd rfl hne
  | cons piece rest ih =>
    obtain ⟨hpiece, hrest⟩ := List.forall_mem_cons.mp h
    cases rest with
    | nil => exact split_of_not_mem hpiece
    | cons next others => rw [join, split_append hpiece, ih (by simp) hrest]

/-- A character of a piece is no mark and stands in the text. -/
theorem mem_of_mem_split {text piece : List Char} {c : Char} (hpiece : piece ∈ split mark text)
    (hc : c ∈ piece) : c ≠ mark ∧ c ∈ text := by
  induction text generalizing piece with
  | nil =>
    obtain rfl : piece = [] := by simpa [split] using hpiece
    simp at hc
  | cons first rest ih =>
    rw [split] at hpiece
    split at hpiece
    case isTrue =>
      rcases List.mem_cons.mp hpiece with rfl | hmem
      · simp at hc
      · exact ⟨(ih hmem hc).1, List.mem_cons_of_mem _ (ih hmem hc).2⟩
    case isFalse hfirst =>
      cases hsplit : split mark rest with
      | nil => exact absurd hsplit (split_ne_nil mark rest)
      | cons front others =>
        rw [hsplit] at hpiece ih
        rcases List.mem_cons.mp hpiece with rfl | hmem
        · rcases List.mem_cons.mp hc with rfl | hfront
          · exact ⟨hfirst, List.mem_cons_self⟩
          · have hboth := ih List.mem_cons_self hfront
            exact ⟨hboth.1, List.mem_cons_of_mem _ hboth.2⟩
        · have hboth := ih (List.mem_cons_of_mem _ hmem) hc
          exact ⟨hboth.1, List.mem_cons_of_mem _ hboth.2⟩

/-- A piece holds no mark. -/
theorem not_mem_of_mem_split {text piece : List Char} (h : piece ∈ split mark text) :
    mark ∉ piece := fun hmark => (mem_of_mem_split h hmark).1 rfl

/-- A character of joined pieces is a mark or stands in one of them. -/
theorem mem_join {pieces : List (List Char)} {c : Char} (h : c ∈ join mark pieces) :
    c = mark ∨ ∃ piece ∈ pieces, c ∈ piece := by
  induction pieces with
  | nil => simp [join] at h
  | cons piece rest ih =>
    cases rest with
    | nil => exact Or.inr ⟨piece, by simp, by simpa [join] using h⟩
    | cons next others =>
      rw [join, List.mem_append, List.mem_cons] at h
      rcases h with hpiece | rfl | hrest
      · exact Or.inr ⟨piece, by simp, hpiece⟩
      · exact Or.inl rfl
      · obtain rfl | ⟨other, hother, hc⟩ := ih hrest
        · exact Or.inl rfl
        · exact Or.inr ⟨other, List.mem_cons_of_mem _ hother, hc⟩

/-- Joined pieces are not empty when the first one is not. -/
theorem join_ne_nil {piece : List Char} (h : piece ≠ []) (rest : List (List Char)) :
    join mark (piece :: rest) ≠ [] := by
  cases rest with
  | nil => exact h
  | cons next others => simp [join, h]

/-- Joined pieces do not get longer when none of the pieces does. -/
theorem length_join_map_le (mark : Char) {change : List Char → List Char}
    (h : ∀ piece, (change piece).length ≤ piece.length) (pieces : List (List Char)) :
    (join mark (pieces.map change)).length ≤ (join mark pieces).length := by
  induction pieces with
  | nil => exact Nat.le_refl _
  | cons piece rest ih =>
    cases rest with
    | nil => exact h piece
    | cons next others =>
      have hpiece := h piece
      simp only [List.map_cons, join, List.length_append, List.length_cons] at ih ⊢
      omega

/-- Two parts of the pieces are joined with a mark between them. -/
theorem join_append {front back : List (List Char)} (hfront : front ≠ []) (hback : back ≠ []) :
    join mark (front ++ back) = join mark front ++ mark :: join mark back := by
  induction front with
  | nil => exact absurd rfl hfront
  | cons piece rest ih =>
    cases rest with
    | nil =>
      obtain ⟨next, others, rfl⟩ := List.exists_cons_of_ne_nil hback
      rfl
    | cons next others =>
      have hrest := ih (List.cons_ne_nil next others)
      rw [List.cons_append] at hrest
      rw [List.cons_append, List.cons_append, join, hrest, join, List.append_assoc, List.cons_append]

end Pieces

namespace Dotted

/-- The path of some segments goes on behind them with the path of the others. -/
theorem ofSegments_append {names rest : List String} (hnames : names ≠ []) (hrest : rest ≠ []) :
    ofSegments (names ++ rest) = ofSegments names ++ "." ++ ofSegments rest := by
  apply String.toList_injective
  simp [ofSegments, Pieces.join_append, hnames, hrest]

/-- One more segment behind a path. -/
theorem ofSegments_concat {names : List String} (hne : names ≠ []) (name : String) :
    ofSegments (names ++ [name]) = ofSegments names ++ "." ++ name := by
  rw [ofSegments_append hne (List.cons_ne_nil name [])]
  simp [ofSegments, Pieces.join]

/-- No segment of a path holds a dot. -/
theorem dot_not_mem_of_mem_segments {path name : String} (h : name ∈ segments path) :
    '.' ∉ name.toList := by
  obtain ⟨piece, hpiece, rfl⟩ := List.mem_map.mp h
  rw [String.toList_ofList]
  exact Pieces.not_mem_of_mem_split hpiece

/-- Every path has a segment. -/
theorem segments_ne_nil (path : String) : segments path ≠ [] := by
  simp [segments, Pieces.split_ne_nil]

/-- The segments of a path are those that it was made of, when none of them holds a dot. -/
theorem segments_ofSegments {names : List String} (hne : names ≠ [])
    (h : ∀ name ∈ names, '.' ∉ name.toList) : segments (ofSegments names) = names := by
  have hsplit : Pieces.split '.' (Pieces.join '.' (names.map String.toList)) =
      names.map String.toList := by
    refine Pieces.split_join (by simpa using hne) ?_
    exact List.forall_mem_map.mpr h
  rw [segments, ofSegments, String.toList_ofList, hsplit, List.map_map]
  simp [Function.comp_def]

/-- The segments of a part of a path are that part. -/
theorem segments_ofSegments_of_isInfix {names : List String} {path : String} (hne : names ≠ [])
    (h : names <:+: segments path) : segments (ofSegments names) = names :=
  segments_ofSegments hne fun _ hname => dot_not_mem_of_mem_segments (h.subset hname)

/-- Paths with the same segments are the same. -/
theorem segments_injective : Function.Injective segments := by
  intro path other h
  rw [← ofSegments_segments path, h, ofSegments_segments]

/-- The proper fronts of a list are its prefixes that are not empty and not the list. -/
theorem mem_properFronts {α : Type} {front names : List α} :
    front ∈ properFronts names ↔ front ≠ [] ∧ front <+: names ∧ front ≠ names := by
  induction names generalizing front with
  | nil => simp [properFronts]
  | cons head rest ih =>
    cases rest with
    | nil => cases front <;> simp [properFronts, List.cons_prefix_cons]
    | cons next others =>
      simp only [properFronts, List.mem_cons, List.mem_map]
      cases front with
      | nil => simp
      | cons first front =>
        rw [List.cons_prefix_cons]
        constructor
        · rintro (hfront | ⟨inner, hinner, hsame⟩)
          · obtain ⟨rfl, rfl⟩ := List.cons.inj hfront
            simp
          · obtain ⟨rfl, rfl⟩ := List.cons.inj hsame
            obtain ⟨_, hbegins, hdiffer⟩ := ih.mp hinner
            simpa using ⟨hbegins, hdiffer⟩
        · rintro ⟨_, ⟨rfl, hbegins⟩, hdiffer⟩
          by_cases hempty : front = []
          · exact Or.inl (by rw [hempty])
          · exact Or.inr ⟨front, ih.mpr ⟨hempty, hbegins, by simpa using hdiffer⟩, rfl⟩

/-- The proper fronts of a list in two parts: those of the first part, that part, and then those that
reach into the second part. -/
theorem properFronts_append {α : Type} {names rest : List α} (hnames : names ≠ [])
    (hrest : rest ≠ []) :
    properFronts (names ++ rest) =
      properFronts names ++ names :: (properFronts rest).map (names ++ ·) := by
  induction names with
  | nil => exact absurd rfl hnames
  | cons head others ih =>
    cases others with
    | nil =>
      cases rest with
      | nil => exact absurd rfl hrest
      | cons next rest => simp [properFronts]
    | cons next others =>
      have hothers := ih (List.cons_ne_nil next others)
      rw [List.cons_append] at hothers
      simp [properFronts, hothers, Function.comp_def]

/-- A place is above a path when its segments are the first ones of the path, but not all. -/
theorem mem_ancestors {place path : String} :
    place ∈ ancestors path ↔ segments place <+: segments path ∧ place ≠ path := by
  rw [ancestors, List.mem_map]
  constructor
  · rintro ⟨front, hfront, rfl⟩
    obtain ⟨hne, hbegins, hdiffer⟩ := mem_properFronts.mp hfront
    have hsegments := segments_ofSegments_of_isInfix hne hbegins.isInfix
    rw [hsegments]
    refine ⟨hbegins, fun hsame => hdiffer ?_⟩
    rw [← hsegments, hsame]
  · rintro ⟨hbegins, hdiffer⟩
    refine ⟨segments place, mem_properFronts.mpr ⟨segments_ne_nil place, hbegins, ?_⟩,
      ofSegments_segments place⟩
    exact fun hsame => hdiffer (segments_injective hsame)

/-- A place is above a path that its segments begin. -/
theorem mem_ancestors_of_segments {place path : String} {rest : List String} (hne : rest ≠ [])
    (h : segments path = segments place ++ rest) : place ∈ ancestors path := by
  refine mem_ancestors.mpr ⟨⟨rest, h.symm⟩, ?_⟩
  rintro rfl
  simp [hne] at h

/-- What is above a place is above all that the place is above of. -/
theorem mem_ancestors_trans {outer inner path : String} (houter : outer ∈ ancestors inner)
    (hinner : inner ∈ ancestors path) : outer ∈ ancestors path := by
  obtain ⟨hfirst, hne⟩ := mem_ancestors.mp houter
  obtain ⟨hsecond, hother⟩ := mem_ancestors.mp hinner
  refine mem_ancestors.mpr ⟨hfirst.trans hsecond, ?_⟩
  rintro rfl
  exact hne (segments_injective (hfirst.eq_of_length_le hsecond.length_le))

/-- Nothing is above itself. -/
theorem not_mem_ancestors_self (place : String) : place ∉ ancestors place := fun h =>
  (mem_ancestors.mp h).2 rfl

/-- What follows a front is the rest of the list. -/
theorem after?_eq_some_iff {α : Type} [DecidableEq α] {front names rest : List α} :
    after? front names = some rest ↔ names = front ++ rest := by
  induction front generalizing names with
  | nil => simp [after?]
  | cons head front ih =>
    cases names with
    | nil => simp [after?]
    | cons name names =>
      by_cases hsame : head = name
      · simp [after?, hsame, ih]
      · simp [after?, hsame, Ne.symm hsame]

/-- A path is seen from a place above it as the segments that the place leaves. -/
theorem exists_relativeTo {place path : String} (h : place ∈ ancestors path) :
    ∃ rest, rest ≠ [] ∧ segments path = segments place ++ rest ∧
      relativeTo path place = ofSegments rest := by
  obtain ⟨⟨rest, hrest⟩, hne⟩ := mem_ancestors.mp h
  cases rest with
  | nil => exact absurd (segments_injective (by simpa using hrest)) hne
  | cons name names =>
    refine ⟨name :: names, by simp, hrest.symm, ?_⟩
    rw [relativeTo, after?_eq_some_iff.mpr hrest.symm]

/-- A path is the place above it and what it is seen as from there. -/
theorem append_relativeTo {place path : String} (h : place ∈ ancestors path) :
    place ++ "." ++ relativeTo path place = path := by
  obtain ⟨rest, hrest, hsegments, hseen⟩ := exists_relativeTo h
  rw [hseen, ← ofSegments_segments place, ← ofSegments_append (segments_ne_nil place) hrest,
    ← hsegments, ofSegments_segments]

/-- Paths below a place that look the same from there are the same. -/
theorem relativeTo_injective {place path other : String} (hpath : place ∈ ancestors path)
    (hother : place ∈ ancestors other) (h : relativeTo path place = relativeTo other place) :
    path = other := by
  obtain ⟨rest, hrest, hsegments, hseen⟩ := exists_relativeTo hpath
  obtain ⟨rest', hrest', hsegments', hseen'⟩ := exists_relativeTo hother
  have hpart : rest <:+: segments path := hsegments ▸ (List.suffix_append _ _).isInfix
  have hpart' : rest' <:+: segments other := hsegments' ▸ (List.suffix_append _ _).isInfix
  have hsame : rest = rest' := by
    rw [← segments_ofSegments_of_isInfix hrest hpart, ← hseen, h, hseen',
      segments_ofSegments_of_isInfix hrest' hpart']
  exact segments_injective (by rw [hsegments, hsame, hsegments'])

/-- A path lies below the places above it. -/
theorem isBelow_iff {path place : String} : isBelow path place = true ↔ place ∈ ancestors path := by
  rw [isBelow]
  constructor
  · intro h
    split at h
    case h_1 name names hafter =>
      have hsegments := after?_eq_some_iff.mp hafter
      refine mem_ancestors.mpr ⟨⟨_, hsegments.symm⟩, ?_⟩
      rintro rfl
      simp at hsegments
    case h_2 => simp at h
  · intro h
    obtain ⟨rest, hne, hsegments, _⟩ := exists_relativeTo h
    rw [after?_eq_some_iff.mpr hsegments]
    cases rest with
    | nil => exact absurd rfl hne
    | cons name names => rfl

/-- The places above a path, divided at one of them that the first segments lead to. -/
theorem ancestors_eq_append_map {place path : String} {rest : List String} (hne : rest ≠ [])
    (h : segments path = segments place ++ rest) :
    ancestors path = ancestors place ++ place ::
      (properFronts rest).map fun front => ofSegments (segments place ++ front) := by
  rw [ancestors, h, properFronts_append (segments_ne_nil place) hne]
  simp [ancestors, Function.comp_def]

/-- The places between a place and a path below it. -/
theorem filter_isBelow_ancestors {place path : String} {rest : List String} (hne : rest ≠ [])
    (h : segments path = segments place ++ rest) :
    (ancestors path).filter (isBelow · place) =
      (properFronts rest).map fun front => ofSegments (segments place ++ front) := by
  have habove : (ancestors place).filter (isBelow · place) = [] := by
    refine List.filter_eq_nil_iff.mpr fun outer houter hbelow => ?_
    exact not_mem_ancestors_self outer (mem_ancestors_trans houter (isBelow_iff.mp hbelow))
  have hself : ¬ isBelow place place = true := fun hbelow =>
    not_mem_ancestors_self place (isBelow_iff.mp hbelow)
  have hbetween : ∀ inner ∈ (properFronts rest).map fun front => ofSegments (segments place ++ front),
      isBelow inner place = true := by
    refine List.forall_mem_map.mpr fun front hfront => isBelow_iff.mpr ?_
    obtain ⟨hsome, hbegins, _⟩ := mem_properFronts.mp hfront
    have hpart : segments place ++ front <:+: segments path := by
      rw [h]
      exact ((List.prefix_append_right_inj _).mpr hbegins).isInfix
    have hsegments : segments (ofSegments (segments place ++ front)) = segments place ++ front :=
      segments_ofSegments_of_isInfix (by simp [hsome]) hpart
    refine mem_ancestors.mpr ⟨?_, fun hsame => hsome ?_⟩
    · rw [hsegments]
      exact List.prefix_append _ _
    · rw [← hsame] at hsegments
      simpa using hsegments
  rw [ancestors_eq_append_map hne h, List.filter_append, habove, List.nil_append,
    List.filter_cons, if_neg hself, List.filter_eq_self.mpr hbetween]

/-- The places above a path are those above one of them, that place, and those below it. -/
theorem ancestors_eq_append {place path : String} (h : place ∈ ancestors path) :
    ancestors path =
      ancestors place ++ place :: (ancestors path).filter (isBelow · place) := by
  obtain ⟨rest, hne, hsegments, _⟩ := exists_relativeTo h
  rw [filter_isBelow_ancestors hne hsegments]
  exact ancestors_eq_append_map hne hsegments

end Dotted

end FilterRules
