import FilterRules.Conversion
import FilterRules.Proofs.Text.Dotted
import FilterRules.Proofs.Text.Trimming

/-!
# The canonical text of a path

A path has a canonical text, without blanks around its segments, its key and its value. A text that
was read has a proper path: there are segments, none of them is blank or has blanks around it, and no
part of the path holds a character that would end it. The canonical text of a proper path is read as
that path again, unless it has a selection with an empty key or value; that one is not a path at all.
-/

namespace FilterRules

namespace AttributePath

/-- The text with the given parts. -/
def Parts.text (parts : Parts) : List Char :=
  parts.array ++ '[' :: (parts.key ++ ':' :: (parts.value ++ ']' :: '.' :: parts.element))

/-- Parts that hold no character which would end them. -/
structure Parts.IsClosed (parts : Parts) : Prop where
  /-- No bracket or colon stands in front of the brackets. -/
  array : ∀ c ∈ parts.array, isOuter c = true
  /-- No bracket, colon or dot stands in the key. -/
  key : ∀ c ∈ parts.key, isKey c = true
  /-- No bracket stands in the value. -/
  value : ∀ c ∈ parts.value, isValue c = true
  /-- No bracket or colon stands behind the brackets. -/
  element : ∀ c ∈ parts.element, isOuter c = true

/-- Whether one of the parts is missing. -/
def Parts.isPartial (parts : Parts) : Bool :=
  parts.array.isEmpty || parts.key.isEmpty || parts.value.isEmpty || parts.element.isEmpty

/-- A stretch of characters ends at the first one that does not belong to it. -/
theorem takeWhile_append_cons {p : Char → Bool} {front : List Char} {c : Char}
    (h : ∀ d ∈ front, p d = true) (hc : p c = false) (rest : List Char) :
    (front ++ c :: rest).takeWhile p = front ∧ (front ++ c :: rest).dropWhile p = c :: rest := by
  constructor
  · rw [List.takeWhile_append_of_pos h, List.takeWhile_cons_of_neg (by simp [hc]), List.append_nil]
  · rw [List.dropWhile_append_of_pos h, List.dropWhile_cons_of_neg (by simp [hc])]

/-- A text of closed parts has those parts, unless one of them is missing. -/
theorem parts?_text {parts : Parts} (h : parts.IsClosed) :
    parts? parts.text = if parts.isPartial then none else some parts := by
  have harray := takeWhile_append_cons h.array (show isOuter '[' = false by decide)
  have hkey := takeWhile_append_cons h.key (show isKey ':' = false by decide)
  have hvalue := takeWhile_append_cons h.value (show isValue ']' = false by decide)
  have helement : parts.element.all isOuter = true := List.all_eq_true.mpr h.element
  simp only [Parts.text, parts?, harray, hkey, hvalue, helement, Bool.not_true, Bool.or_false]
  rfl

/-- The parts of a text are closed, none of them is missing, and they make up the text. -/
theorem of_parts? {text : List Char} {parts : Parts} (h : parts? text = some parts) :
    parts.text = text ∧ parts.IsClosed ∧ parts.isPartial = false := by
  have hall {p : Char → Bool} {chars : List Char} : ∀ c ∈ chars.takeWhile p, p c = true :=
    fun _ hc => List.mem_takeWhile_imp hc
  rw [parts?] at h
  split at h
  case h_2 => simp at h
  case h_1 inner hinner =>
    split at h
    case h_2 => simp at h
    case h_1 inside hinside =>
      split at h
      case h_2 => simp at h
      case h_1 element helement =>
        obtain ⟨hfull, h⟩ := Option.ite_none_left_eq_some.mp h
        obtain rfl := Option.some.inj h
        simp only [Bool.or_eq_true, Bool.not_eq_true', not_or, Bool.not_eq_true,
          Bool.not_eq_false] at hfull
        obtain ⟨⟨⟨⟨hfirst, hsecond⟩, hthird⟩, hfourth⟩, hlast⟩ := hfull
        refine ⟨?_, ⟨hall, hall, hall, List.all_eq_true.mp hlast⟩, ?_⟩
        · rw [Parts.text, ← helement, List.takeWhile_append_dropWhile, ← hinside,
            List.takeWhile_append_dropWhile, ← hinner, List.takeWhile_append_dropWhile]
        · simp [Parts.isPartial, hfirst, hsecond, hthird, hfourth]

/-- A text without an opening bracket has no parts. -/
theorem parts?_eq_none {text : List Char} (h : '[' ∉ text) : parts? text = none := by
  cases hparts : parts? text with
  | none => rfl
  | some parts =>
    obtain ⟨rfl, _, _⟩ := of_parts? hparts
    simp [Parts.text] at h

/-- Segments of a path, whose characters all have a property. -/
structure AreSegments (p : Char → Bool) (names : List String) : Prop where
  /-- There are segments. -/
  ne_nil : names ≠ []
  /-- No segment is empty. -/
  nonempty : ∀ name ∈ names, name.toList ≠ []
  /-- No segment has blanks around it. -/
  trimmed : ∀ name ∈ names, Text.IsTrimmed name.toList
  /-- No segment holds a dot, and its characters have the property. -/
  chars : ∀ name ∈ names, ∀ c ∈ name.toList, c ≠ '.' ∧ p c = true

/-- The segments of a text whose characters have a property. -/
theorem areSegments_of_segments? {p : Char → Bool} {text : List Char} {names : List String}
    (htext : ∀ c ∈ text, p c = true) (h : segments? text = some names) : AreSegments p names := by
  rw [segments?] at h
  obtain ⟨hblank, h⟩ := Option.ite_none_left_eq_some.mp h
  obtain rfl := Option.some.inj h
  have hname {name : String}
      (hname : name ∈ ((Pieces.split '.' text).map Text.trim).map String.ofList) :
      ∃ piece ∈ Pieces.split '.' text, name.toList = Text.trim piece := by
    obtain ⟨trimmed, htrimmed, rfl⟩ := List.mem_map.mp hname
    obtain ⟨piece, hpiece, rfl⟩ := List.mem_map.mp htrimmed
    exact ⟨piece, hpiece, String.toList_ofList⟩
  refine ⟨by simp [Pieces.split_ne_nil], ?_, ?_, ?_⟩
  · intro name hmem hempty
    obtain ⟨piece, hpiece, hchars⟩ := hname hmem
    refine hblank (List.any_eq_true.mpr ⟨Text.trim piece, List.mem_map_of_mem hpiece, ?_⟩)
    simpa [hchars] using hempty
  · intro name hmem
    obtain ⟨piece, _, hchars⟩ := hname hmem
    rw [hchars]
    exact Text.isTrimmed_trim piece
  · intro name hmem c hc
    obtain ⟨piece, hpiece, hchars⟩ := hname hmem
    have hinside : c ∈ piece := (Text.trim_isInfix piece).subset (hchars ▸ hc)
    obtain ⟨hdot, hmemText⟩ := Pieces.mem_of_mem_split hpiece hinside
    exact ⟨hdot, htext c hmemText⟩

namespace AreSegments

variable {p : Char → Bool} {names : List String}

/-- Joined segments are read as those segments. -/
theorem segments?_join (h : AreSegments p names) :
    segments? (Pieces.join '.' (names.map String.toList)) = some names := by
  have hsplit : Pieces.split '.' (Pieces.join '.' (names.map String.toList)) =
      names.map String.toList := by
    refine Pieces.split_join (by simpa using h.ne_nil) (List.forall_mem_map.mpr ?_)
    exact fun name hname hdot => (h.chars name hname '.' hdot).1 rfl
  have htrim : (names.map String.toList).map Text.trim = names.map String.toList := by
    rw [List.map_map]
    exact List.map_congr_left fun name hname => Text.trim_eq_self_iff.mpr (h.trimmed name hname)
  have hblank : (names.map String.toList).any List.isEmpty = false := by
    rw [List.any_eq_false]
    refine List.forall_mem_map.mpr fun name hname => ?_
    simpa using h.nonempty name hname
  rw [segments?, hsplit, htrim, if_neg (by simp [hblank]), List.map_map]
  simp [Function.comp_def]

/-- The characters of joined segments have the property when the dot has it. -/
theorem forall_mem_join (h : AreSegments p names) (hdot : p '.' = true) :
    ∀ c ∈ Pieces.join '.' (names.map String.toList), p c = true := by
  intro c hc
  rcases Pieces.mem_join hc with rfl | ⟨piece, hpiece, hmem⟩
  · exact hdot
  · obtain ⟨name, hname, rfl⟩ := List.mem_map.mp hpiece
    exact (h.chars name hname c hmem).2

/-- Joined segments are not empty. -/
theorem join_ne_nil (h : AreSegments p names) : Pieces.join '.' (names.map String.toList) ≠ [] := by
  cases names with
  | nil => exact absurd rfl h.ne_nil
  | cons name rest => exact Pieces.join_ne_nil (h.nonempty name List.mem_cons_self) _

end AreSegments

/-- A path that could have been read: with segments, and with parts that hold no character which would
end them. -/
def IsProper : AttributePath → Prop
  | .plain segments => AreSegments isValue segments
  | .filtered array key value element => AreSegments isOuter array ∧ AreSegments isOuter element ∧
      (Text.IsTrimmed key.toList ∧ ∀ c ∈ key.toList, isKey c = true) ∧
      Text.IsTrimmed value.toList ∧ ∀ c ∈ value.toList, isValue c = true

/-- A text that is read has a proper path. -/
theorem isProper_of_parse? {text : String} {path : AttributePath} (h : parse? text = some path) :
    path.IsProper := by
  rw [parse?, ofChars?] at h
  cases hparts : parts? text.toList with
  | none =>
    simp only [hparts] at h
    obtain ⟨hvalue, h⟩ := Option.ite_none_right_eq_some.mp h
    obtain ⟨segments, hsegments, rfl⟩ := Option.map_eq_some_iff.mp h
    exact areSegments_of_segments? (List.all_eq_true.mp hvalue) hsegments
  | some parts =>
    simp only [hparts, Option.bind_eq_bind, Option.bind_eq_some_iff, Option.some.injEq] at h
    obtain ⟨array, harray, element, helement, rfl⟩ := h
    obtain ⟨_, hclosed, _⟩ := of_parts? hparts
    have hkey : ∀ c ∈ Text.trim parts.key, isKey c = true := fun c hc =>
      hclosed.key c ((Text.trim_isInfix parts.key).subset hc)
    have hvalue : ∀ c ∈ Text.trim parts.value, isValue c = true := fun c hc =>
      hclosed.value c ((Text.trim_isInfix parts.value).subset hc)
    refine ⟨areSegments_of_segments? hclosed.array harray,
      areSegments_of_segments? hclosed.element helement, ?_, ?_⟩
    · simpa using ⟨Text.isTrimmed_trim parts.key, hkey⟩
    · simpa using ⟨Text.isTrimmed_trim parts.value, hvalue⟩

/-- The parts of the canonical text of a path with a selection. -/
def partsOf (array : List String) (key value : String) (element : List String) : Parts :=
  ⟨Pieces.join '.' (array.map String.toList), key.toList, value.toList,
    Pieces.join '.' (element.map String.toList)⟩

/-- The canonical text of a path. -/
def text : AttributePath → String
  | .plain segments => Dotted.ofSegments segments
  | .filtered array key value element => String.ofList (partsOf array key value element).text

/-- Whether the selection of a path, if there is one, has a key and a value. -/
def isNamed : AttributePath → Bool
  | .plain _ => true
  | .filtered _ key value _ => !key.toList.isEmpty && !value.toList.isEmpty

/-- The canonical text of a proper path is read as that path when its selection has a key and a value,
and is no path when it has not. -/
theorem parse?_text {path : AttributePath} (h : path.IsProper) :
    parse? path.text = if path.isNamed then some path else none := by
  cases path with
  | plain segments =>
    have hvalue := h.forall_mem_join (by decide)
    have hopening : '[' ∉ Pieces.join '.' (segments.map String.toList) := fun hmem =>
      absurd (hvalue '[' hmem) (by decide)
    rw [parse?, text, Dotted.ofSegments, String.toList_ofList, ofChars?, parts?_eq_none hopening]
    simp only [List.all_eq_true.mpr hvalue, if_true, h.segments?_join, isNamed]
    rfl
  | filtered array key value element =>
    obtain ⟨harray, helement, ⟨hkey, hkeyChars⟩, hvalue, hvalueChars⟩ := h
    have hclosed : (partsOf array key value element).IsClosed :=
      ⟨harray.forall_mem_join (by decide), hkeyChars, hvalueChars,
        helement.forall_mem_join (by decide)⟩
    have hpartial : (partsOf array key value element).isPartial =
        !(filtered array key value element).isNamed := by
      have harrayText := List.isEmpty_eq_false_iff.mpr harray.join_ne_nil
      have helementText := List.isEmpty_eq_false_iff.mpr helement.join_ne_nil
      simp [partsOf, Parts.isPartial, isNamed, harrayText, helementText]
    have hbracket : (partsOf array key value element).text.all isValue = false :=
      List.all_eq_false.mpr ⟨'[', by simp [Parts.text], by decide⟩
    rw [parse?, text, String.toList_ofList, ofChars?, parts?_text hclosed, hpartial]
    cases hnamed : (filtered array key value element).isNamed with
    | false => simp [hbracket]
    | true =>
      have hkeyText : Text.trim key.toList = key.toList := Text.trim_eq_self_iff.mpr hkey
      have hvalueText : Text.trim value.toList = value.toList := Text.trim_eq_self_iff.mpr hvalue
      simp [partsOf, harray.segments?_join, helement.segments?_join, hkeyText, hvalueText]

/-- The segments of the paths of a selection: of its list, of its key, and of the field. -/
theorem segments_of_selection {path : AttributePath} {array keyPath : String}
    (hproper : path.IsProper) (harray : path.arrayPath? = some array)
    (hkey : path.keyPath? = some keyPath) :
    ∃ key element, element ≠ [] ∧ Dotted.segments keyPath = Dotted.segments array ++ [key] ∧
      Dotted.segments path.schemaPath = Dotted.segments array ++ element := by
  cases path with
  | plain segments => simp [arrayPath?] at harray
  | filtered names key value element =>
    obtain rfl := Option.some.inj harray
    obtain rfl := Option.some.inj hkey
    obtain ⟨hnames, helement, ⟨_, hkeyChars⟩, _⟩ := hproper
    have hdots : ∀ name ∈ names, '.' ∉ name.toList := fun name hname hdot =>
      (hnames.chars name hname '.' hdot).1 rfl
    have hdotsElement : ∀ name ∈ element, '.' ∉ name.toList := fun name hname hdot =>
      (helement.chars name hname '.' hdot).1 rfl
    have hdotsKey : '.' ∉ key.toList := fun hdot => absurd (hkeyChars '.' hdot) (by decide)
    have harraySegments := Dotted.segments_ofSegments hnames.ne_nil hdots
    refine ⟨key, element, helement.ne_nil, ?_, ?_⟩
    · rw [← Dotted.ofSegments_concat hnames.ne_nil, harraySegments]
      refine Dotted.segments_ofSegments (by simp) fun name hname => ?_
      rcases List.mem_append.mp hname with hname | hname
      · exact hdots name hname
      · rwa [List.mem_singleton.mp hname]
    · rw [harraySegments, schemaPath]
      refine Dotted.segments_ofSegments (by simp [hnames.ne_nil]) fun name hname => ?_
      rcases List.mem_append.mp hname with hname | hname
      · exact hdots name hname
      · exact hdotsElement name hname

end AttributePath

end FilterRules
