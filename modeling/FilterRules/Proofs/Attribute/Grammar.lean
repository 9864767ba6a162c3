import FilterRules.Proofs.Attribute
import FilterRules.Proofs.Conversion

/-!
# The grammar of attributes

An attribute is written in one of two ways: as a dotted path without brackets, or as
`array[key:value].element`, where no bracket or colon stands in the list or in the element, none and no
dot in the key, and no bracket in the value. The segments of the paths must not be blank. A text of the
second form has it in one way only, and a text of neither form is no path. Key and value have to be there
but may be blank, and then the path has an empty key or value, and a canonical text that is no path.
-/

namespace FilterRules.AttributePath

/-- Whether none of some marks stands in a text. -/
def Avoids (marks text : List Char) : Prop := ∀ c ∈ text, c ∉ marks

/-- Whether some character of a text is not blank. -/
def HasContent (text : List Char) : Prop := ∃ c ∈ text, Text.isBlank c = false

/-- Whether each segment of a text has a character that is not blank. -/
def HasSegments (text : List Char) : Prop := ∀ piece ∈ Pieces.split '.' text, HasContent piece

/-- The segments of a text, each without the blanks around it. -/
def trimmedSegments (text : List Char) : List String :=
  (Pieces.split '.' text).map fun piece => String.ofList (Text.trim piece)

/-- A text of the form of a path without a selection. -/
structure IsPlainText (text : List Char) : Prop where
  /-- No bracket stands in the text. -/
  brackets : Avoids ['[', ']'] text
  /-- No segment is blank. -/
  segments : HasSegments text

/-- Whether a text is made of the given parts, in the form of a path with a selection. -/
structure Parts.Spell (parts : Parts) (text : List Char) : Prop where
  /-- The text has the brackets, the colon and the dot between its parts. -/
  text_eq : text =
    parts.array ++ '[' :: (parts.key ++ ':' :: (parts.value ++ ']' :: '.' :: parts.element))
  /-- The list is a path without brackets and colons. -/
  array : parts.array ≠ [] ∧ Avoids ['[', ']', ':'] parts.array ∧ HasSegments parts.array
  /-- The key has no brackets, colons and dots. -/
  key : parts.key ≠ [] ∧ Avoids ['[', ']', ':', '.'] parts.key
  /-- The value has no brackets. -/
  value : parts.value ≠ [] ∧ Avoids ['[', ']'] parts.value
  /-- The element is a path without brackets and colons. -/
  element : parts.element ≠ [] ∧ Avoids ['[', ']', ':'] parts.element ∧ HasSegments parts.element

/-- A character stands outside brackets when it is neither a bracket nor a colon. -/
theorem forall_isOuter_iff {text : List Char} :
    (∀ c ∈ text, isOuter c = true) ↔ Avoids ['[', ']', ':'] text := by
  simp [Avoids, isOuter, and_assoc]

/-- A character stands in a key when it is neither a bracket nor a colon nor a dot. -/
theorem forall_isKey_iff {text : List Char} :
    (∀ c ∈ text, isKey c = true) ↔ Avoids ['[', ']', ':', '.'] text := by
  simp [Avoids, isKey, isOuter, and_assoc]

/-- A character stands in a value when it is no bracket. -/
theorem forall_isValue_iff {text : List Char} :
    (∀ c ∈ text, isValue c = true) ↔ Avoids ['[', ']'] text := by
  simp [Avoids, isValue]

/-- Trimming leaves something of a text that has content. -/
theorem trim_ne_nil_iff {text : List Char} : Text.trim text ≠ [] ↔ HasContent text := by
  simp [HasContent, Text.trim_eq_nil_iff]

/-- A text has segments when none of them is blank. -/
theorem segments?_eq_some_iff {text : List Char} {names : List String} :
    segments? text = some names ↔ HasSegments text ∧ names = trimmedSegments text := by
  have hblank : ¬((Pieces.split '.' text).map Text.trim).any List.isEmpty = true ↔
      HasSegments text := by
    simp [HasSegments, ← trim_ne_nil_iff]
  have htrimmed : ((Pieces.split '.' text).map Text.trim).map String.ofList =
      trimmedSegments text := by
    rw [List.map_map]
    rfl
  rw [segments?, htrimmed, Option.ite_none_left_eq_some, hblank, Option.some.injEq, eq_comm]

/-- A text is made of some parts when these are found in it and the segments of both paths are not
blank. -/
theorem Parts.spell_iff {parts : Parts} {text : List Char} : parts.Spell text ↔
    parts? text = some parts ∧ HasSegments parts.array ∧ HasSegments parts.element := by
  constructor
  · intro h
    have hclosed : parts.IsClosed := ⟨forall_isOuter_iff.mpr h.array.2.1,
      forall_isKey_iff.mpr h.key.2, forall_isValue_iff.mpr h.value.2,
      forall_isOuter_iff.mpr h.element.2.1⟩
    have hwhole : parts.isPartial = false := by
      simp [isPartial, h.array.1, h.key.1, h.value.1, h.element.1]
    have htext : text = parts.text := h.text_eq
    refine ⟨?_, h.array.2.2, h.element.2.2⟩
    rw [htext, parts?_text hclosed, hwhole, if_neg Bool.false_ne_true]
  · rintro ⟨hparts, harray, helement⟩
    obtain ⟨htext, hclosed, hwhole⟩ := of_parts? hparts
    simp only [isPartial, Bool.or_eq_false_iff, List.isEmpty_eq_false_iff] at hwhole
    obtain ⟨⟨⟨hfirst, hsecond⟩, hthird⟩, hfourth⟩ := hwhole
    exact {
      text_eq := htext.symm
      array := ⟨hfirst, forall_isOuter_iff.mp hclosed.array, harray⟩
      key := ⟨hsecond, forall_isKey_iff.mp hclosed.key⟩
      value := ⟨hthird, forall_isValue_iff.mp hclosed.value⟩
      element := ⟨hfourth, forall_isOuter_iff.mp hclosed.element, helement⟩ }

/-- A text is made of parts in one way at most. -/
theorem Parts.Spell.unique {first second : Parts} {text : List Char} (hfirst : first.Spell text)
    (hsecond : second.Spell text) : first = second := by
  have hparts := (Parts.spell_iff.mp hfirst).1
  rw [(Parts.spell_iff.mp hsecond).1] at hparts
  exact (Option.some.inj hparts).symm

/-- A text that is made of parts has brackets. -/
theorem Parts.Spell.not_isPlainText {parts : Parts} {text : List Char} (h : parts.Spell text) :
    ¬IsPlainText text := by
  intro hplain
  refine hplain.brackets '[' ?_ (by simp)
  rw [h.text_eq]
  simp

/-- The path that some parts are read as. -/
def Parts.path (parts : Parts) : AttributePath :=
  .filtered (trimmedSegments parts.array) (String.ofList (Text.trim parts.key))
    (String.ofList (Text.trim parts.value)) (trimmedSegments parts.element)

/-- A text is read as the path of its parts, or as a path without a selection. -/
theorem ofChars?_eq_some_iff {text : List Char} {path : AttributePath} :
    ofChars? text = some path ↔ (∃ parts : Parts, parts.Spell text ∧ path = parts.path) ∨
      IsPlainText text ∧ path = .plain (trimmedSegments text) := by
  rw [ofChars?]
  cases hparts : parts? text with
  | none =>
    have hnone : ¬∃ parts : Parts, parts.Spell text ∧ path = parts.path := by
      rintro ⟨parts, hspell, _⟩
      simp [(Parts.spell_iff.mp hspell).1] at hparts
    have hplain : text.all isValue = true ↔ Avoids ['[', ']'] text := by
      rw [List.all_eq_true, forall_isValue_iff]
    simp only [hnone, false_or, Option.ite_none_right_eq_some, hplain, Option.map_eq_some_iff,
      segments?_eq_some_iff]
    constructor
    · rintro ⟨hbrackets, _, ⟨hsegments, rfl⟩, rfl⟩
      exact ⟨⟨hbrackets, hsegments⟩, rfl⟩
    · rintro ⟨⟨hbrackets, hsegments⟩, rfl⟩
      exact ⟨hbrackets, _, ⟨hsegments, rfl⟩, rfl⟩
  | some parts =>
    simp only [Option.bind_eq_bind, Option.bind_eq_some_iff, segments?_eq_some_iff,
      Option.some.injEq]
    constructor
    · rintro ⟨_, ⟨harray, rfl⟩, _, ⟨helement, rfl⟩, rfl⟩
      exact Or.inl ⟨parts, Parts.spell_iff.mpr ⟨hparts, harray, helement⟩, rfl⟩
    · rintro (⟨other, hspell, rfl⟩ | ⟨hplain, _⟩)
      · obtain ⟨hother, harray, helement⟩ := Parts.spell_iff.mp hspell
        obtain rfl : parts = other := Option.some.inj (hparts.symm.trans hother)
        exact ⟨_, ⟨harray, rfl⟩, _, ⟨helement, rfl⟩, rfl⟩
      · -- The parts were found behind a bracket, which a plain text does not have.
        obtain ⟨htext, _, _⟩ := of_parts? hparts
        refine absurd (by simp) (hplain.brackets '[' ?_)
        rw [← htext, Parts.text]
        simp

/-- A text that is made of parts is read as their path. -/
theorem Parts.Spell.parse?_eq {parts : Parts} {text : String} (h : parts.Spell text.toList) :
    parse? text = some parts.path :=
  ofChars?_eq_some_iff.mpr (Or.inl ⟨parts, h, rfl⟩)

/-- A text without a selection is read as its trimmed segments. -/
theorem IsPlainText.parse?_eq {text : String} (h : IsPlainText text.toList) :
    parse? text = some (.plain (trimmedSegments text.toList)) :=
  ofChars?_eq_some_iff.mpr (Or.inr ⟨h, rfl⟩)

/-- A text of neither form is no path. -/
theorem parse?_eq_none_iff {text : String} :
    parse? text = none ↔
      (¬∃ parts : Parts, parts.Spell text.toList) ∧ ¬IsPlainText text.toList := by
  constructor
  · intro hnone
    refine ⟨?_, fun hplain => ?_⟩
    · rintro ⟨parts, hspell⟩
      simp [hspell.parse?_eq] at hnone
    · simp [hplain.parse?_eq] at hnone
  · rintro ⟨hselected, hplain⟩
    cases hpath : parse? text with
    | none => rfl
    | some path =>
      rcases ofChars?_eq_some_iff.mp hpath with ⟨parts, hspell, _⟩ | ⟨htext, _⟩
      · exact absurd ⟨parts, hspell⟩ hselected
      · exact absurd htext hplain

/-- The error at a place names the text that is no path. -/
theorem parseAt_eq_error_iff {text : String} {place : Option Nat} {error : CompileError} :
    parseAt text place = .error error ↔
      error = .structural (.invalidPath text) place ∧ parse? text = none := by
  rw [parseAt]
  cases parse? text with
  | none => simp [eq_comm]
  | some found => simp

/-- Segments that are trimmed one by one are as many as the dots say, so there is one. -/
theorem trimmedSegments_ne_nil (text : List Char) : trimmedSegments text ≠ [] := by
  simp [trimmedSegments, Pieces.split_ne_nil]

/-- The path of a text without a selection is no longer than the text. -/
theorem length_schemaPath_le {text : String} {names : List String}
    (h : parse? text = some (.plain names)) :
    (schemaPath (.plain names)).toList.length ≤ text.toList.length := by
  rcases ofChars?_eq_some_iff.mp h with ⟨parts, _, hpath⟩ | ⟨_, hpath⟩
  · simp [Parts.path] at hpath
  · obtain rfl := (plain.injEq _ _).mp hpath
    have hpieces := Pieces.length_join_map_le '.'
      (fun piece => (Text.trim_isInfix piece).length_le) (Pieces.split '.' text.toList)
    rw [Pieces.join_split] at hpieces
    simpa [schemaPath, Dotted.ofSegments, trimmedSegments, Function.comp_def] using hpieces

/-- The attributes are exactly the texts of the two forms. A text has a path with a selection when it is
made of parts, which can be done in one way only, and one without when no bracket and no blank segment
is in it; any other text is reported as it stands. The path consists of the trimmed pieces: the schema
knows it by the segments of the list and of the element, joined by dots. -/
theorem parseAt_grammar (text : String) (place : Option Nat) :
    ((∃ path, parseAt text place = .ok path ∧ path.isFiltered = true) ↔
      ∃! parts : Parts, parts.Spell text.toList) ∧
    ((∃ path, parseAt text place = .ok path ∧ path.isFiltered = false) ↔
      IsPlainText text.toList) ∧
    (∀ error, parseAt text place = .error error ↔
      error = .structural (.invalidPath text) place ∧
        (¬∃ parts : Parts, parts.Spell text.toList) ∧ ¬IsPlainText text.toList) ∧
    (∀ parts : Parts, parts.Spell text.toList → ∃ path, parseAt text place = .ok path ∧
      path = .filtered (trimmedSegments parts.array) (String.ofList (Text.trim parts.key))
        (String.ofList (Text.trim parts.value)) (trimmedSegments parts.element) ∧
      path.arrayPath? = some (Dotted.ofSegments (trimmedSegments parts.array)) ∧
      path.elementPath? = some (Dotted.ofSegments (trimmedSegments parts.element)) ∧
      path.schemaPath = Dotted.ofSegments (trimmedSegments parts.array) ++ "." ++
        Dotted.ofSegments (trimmedSegments parts.element)) ∧
    (IsPlainText text.toList → ∃ path, parseAt text place = .ok path ∧
      path = .plain (trimmedSegments text.toList) ∧ path.arrayPath? = none ∧
      path.elementPath? = none ∧
      path.schemaPath = Dotted.ofSegments (trimmedSegments text.toList)) := by
  simp only [parseAt_eq_ok_iff, parseAt_eq_error_iff, parse?_eq_none_iff]
  refine ⟨⟨?_, ?_⟩, ⟨?_, fun hplain => ⟨_, hplain.parse?_eq, rfl⟩⟩, fun _ => trivial, ?_, ?_⟩
  · rintro ⟨path, hpath, hfiltered⟩
    rcases ofChars?_eq_some_iff.mp hpath with ⟨parts, hspell, _⟩ | ⟨_, rfl⟩
    · exact ⟨parts, hspell, fun _ hother => hother.unique hspell⟩
    · simp [isFiltered] at hfiltered
  · rintro ⟨parts, hspell, _⟩
    exact ⟨parts.path, hspell.parse?_eq, rfl⟩
  · rintro ⟨path, hpath, hfiltered⟩
    rcases ofChars?_eq_some_iff.mp hpath with ⟨parts, _, rfl⟩ | ⟨hplain, _⟩
    · simp [Parts.path, isFiltered] at hfiltered
    · exact hplain
  · intro parts hspell
    refine ⟨parts.path, hspell.parse?_eq, rfl, rfl, rfl, ?_⟩
    exact Dotted.ofSegments_append (trimmedSegments_ne_nil _) (trimmedSegments_ne_nil _)
  · exact fun hplain => ⟨_, hplain.parse?_eq, rfl, rfl, rfl, rfl⟩

/-- The colon and the dot in a value belong to it, and a line break around a segment does not count. -/
theorem parseAt_grammar_shelves :
    Parts.Spell ⟨"shop. shelves".toList, " kind ".toList, "a:b.c".toList, "label.\n text".toList⟩
      "shop. shelves[ kind :a:b.c].label.\n text".toList ∧
    ∃ path, parseAt "shop. shelves[ kind :a:b.c].label.\n text" (some 2) = .ok path ∧
      path = .filtered ["shop", "shelves"] "kind" "a:b.c" ["label", "text"] ∧
      path.arrayPath? = some "shop.shelves" ∧ path.elementPath? = some "label.text" ∧
      path.schemaPath = "shop.shelves.label.text" := by
  have harray : segments? "shop. shelves".toList = some ["shop", "shelves"] := by cbv
  have helement : segments? "label.\n text".toList = some ["label", "text"] := by cbv
  have hspell : Parts.Spell
      ⟨"shop. shelves".toList, " kind ".toList, "a:b.c".toList, "label.\n text".toList⟩
      "shop. shelves[ kind :a:b.c].label.\n text".toList :=
    Parts.spell_iff.mpr ⟨by rfl, (segments?_eq_some_iff.mp harray).1,
      (segments?_eq_some_iff.mp helement).1⟩
  refine ⟨hspell, ?_⟩
  have hpath := (parseAt_grammar _ (some 2)).2.2.2.1 _ hspell
  rw [← (segments?_eq_some_iff.mp harray).2, ← (segments?_eq_some_iff.mp helement).2] at hpath
  exact hpath

/-- The segments of a path on both sides of its selection. -/
def segments : AttributePath → List String
  | .plain names => names
  | .filtered array _ _ element => array ++ element

/-- No segment of a proper path is empty. -/
theorem IsProper.segments_ne_empty {path : AttributePath} (h : path.IsProper) :
    ∀ name ∈ path.segments, name ≠ "" := by
  have hname {p : Char → Bool} {names : List String} (hnames : AreSegments p names) :
      ∀ name ∈ names, name ≠ "" := fun name hmem hempty =>
    hnames.nonempty name hmem (by simp [hempty])
  cases path with
  | plain names => exact hname h
  | filtered array key value element =>
    intro name hmem
    rcases List.mem_append.mp hmem with harray | helement
    · exact hname h.1 name harray
    · exact hname h.2.1 name helement

/-- A key and a value stay when their parts are not blank. -/
theorem Parts.isNamed_path {parts : Parts} :
    parts.path.isNamed = true ↔ HasContent parts.key ∧ HasContent parts.value := by
  simp [Parts.path, isNamed, ← trim_ne_nil_iff]

/-- The segments of a path that was read are not empty, and its canonical text is read as that path if
its selection has a key and a value. It lacks one of them when the text has only blanks there, and then
its canonical text is no path. -/
theorem parse?_canonical {text : String} {path : AttributePath} (h : parse? text = some path) :
    (∀ name ∈ path.segments, name ≠ "") ∧
    (path.isNamed = true ↔ ∀ parts : Parts, parts.Spell text.toList →
      HasContent parts.key ∧ HasContent parts.value) ∧
    (path.isNamed = true → parse? path.text = some path) ∧
    (path.isNamed = false → parse? path.text = none) := by
  have hproper := isProper_of_parse? h
  have hread := parse?_text hproper
  refine ⟨hproper.segments_ne_empty, ?_, fun hnamed => ?_, fun hnamed => ?_⟩
  · rcases ofChars?_eq_some_iff.mp h with ⟨parts, hspell, rfl⟩ | ⟨hplain, rfl⟩
    · rw [Parts.isNamed_path]
      refine ⟨fun hboth other hother => ?_, fun hall => hall parts hspell⟩
      rwa [hother.unique hspell]
    · refine iff_of_true rfl fun parts hspell => ?_
      exact absurd hplain hspell.not_isPlainText
  · rw [hread, hnamed, if_pos rfl]
  · rw [hread, hnamed, if_neg Bool.false_ne_true]

/-- The blanks around a key and a value go, and those inside a value stay. -/
theorem parse?_canonical_shelves :
    parse? "shelves[ kind :two parts ]. label" =
      some (.filtered ["shelves"] "kind" "two parts" ["label"]) ∧
    parse? "shelves[kind:two parts].label" =
      some (.filtered ["shelves"] "kind" "two parts" ["label"]) := by
  have hpath : parse? "shelves[ kind :two parts ]. label" =
      some (.filtered ["shelves"] "kind" "two parts" ["label"]) := by cbv
  have hread := (parse?_canonical hpath).2.2.1 (by cbv)
  have htext : text (.filtered ["shelves"] "kind" "two parts" ["label"]) =
      "shelves[kind:two parts].label" := by cbv
  rw [htext] at hread
  exact ⟨hpath, hread⟩

/-- A blank key is read as an empty one, which the canonical text cannot show. -/
theorem blank_key_has_no_text :
    parse? "a[ :v].b" = some (.filtered ["a"] "" "v" ["b"]) ∧
    text (.filtered ["a"] "" "v" ["b"]) = "a[:v].b" ∧ parse? "a[:v].b" = none := by
  cbv

end FilterRules.AttributePath
