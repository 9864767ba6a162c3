import FilterRules.Text.Basic
import Mathlib.Data.List.DropRight

/-!
# Trimmed texts

A text is trimmed when it neither begins nor ends with a blank. Trimming gives such a text, a stretch
of the one it was given, and leaves a text that is trimmed already as it is.
-/

namespace FilterRules.Text

/-- A text that neither begins nor ends with a blank. -/
structure IsTrimmed (text : List Char) : Prop where
  /-- The first character is not blank. -/
  head : ∀ c ∈ text.head?, isBlank c = false
  /-- The last character is not blank. -/
  last : ∀ c ∈ text.getLast?, isBlank c = false

/-- Only the two characters at the ends are looked at. -/
theorem isTrimmed_iff {text : List Char} :
    IsTrimmed text ↔ text.head?.any isBlank = false ∧ text.getLast?.any isBlank = false := by
  simp only [Option.any_eq_false]
  exact ⟨fun h => ⟨h.head, h.last⟩, fun h => ⟨h.1, h.2⟩⟩

instance (text : List Char) : Decidable (IsTrimmed text) :=
  decidable_of_iff' _ isTrimmed_iff

/-- Trimming the end drops blanks from the right. -/
theorem trimEnd_eq_rdropWhile (text : List Char) : trimEnd text = text.rdropWhile isBlank := by
  induction text with
  | nil => rfl
  | cons c rest ih =>
    rw [trimEnd, ih]
    simp only [List.rdropWhile, List.reverse_cons, List.dropWhile_append]
    cases hkept : rest.reverse.dropWhile isBlank with
    | nil => cases hblank : isBlank c <;> simp [hblank]
    | cons last kept => cases hback : (last :: kept).reverse <;> simp_all

/-- What trimming keeps is a stretch of the text. -/
theorem trim_isInfix (text : List Char) : trim text <:+: text := by
  have hfront : trimEnd (text.dropWhile isBlank) <+: text.dropWhile isBlank := by
    rw [trimEnd_eq_rdropWhile]
    exact List.rdropWhile_prefix isBlank _
  exact hfront.isInfix.trans (List.dropWhile_suffix _).isInfix

/-- Trimming leaves no blank at either end. -/
theorem isTrimmed_trim (text : List Char) : IsTrimmed (trim text) := by
  have hfront : trim text <+: text.dropWhile isBlank := by
    rw [trim, trimEnd_eq_rdropWhile]
    exact List.rdropWhile_prefix isBlank _
  constructor
  · intro c hc
    obtain ⟨back, hback⟩ := hfront
    obtain ⟨rest, hrest⟩ := List.head?_eq_some_iff.mp hc
    have hdrop : text.dropWhile isBlank = c :: (rest ++ back) := by rw [← hback, hrest]; rfl
    have hhead := List.head?_dropWhile_not isBlank text
    rw [hdrop] at hhead
    simpa using hhead
  · intro c hc
    rw [trim, trimEnd_eq_rdropWhile] at hc
    obtain ⟨hne, rfl⟩ := List.mem_getLast?_eq_getLast hc
    simpa using List.rdropWhile_last_not isBlank _ hne

/-- A text is left as it is when it is trimmed. -/
theorem trim_eq_self_iff {text : List Char} : trim text = text ↔ IsTrimmed text := by
  constructor
  · intro h
    rw [← h]
    exact isTrimmed_trim text
  · intro h
    have hdrop : text.dropWhile isBlank = text := by
      cases text with
      | nil => rfl
      | cons c rest =>
        have hc : isBlank c = false := h.head c rfl
        simp [List.dropWhile, hc]
    rw [trim, hdrop, trimEnd_eq_rdropWhile, List.rdropWhile_eq_self_iff]
    intro hne
    have hlast := h.last _ (List.getLast_mem_getLast? hne)
    simp [hlast]

/-- Trimming twice is trimming once. -/
@[simp] theorem trim_trim (text : List Char) : trim (trim text) = trim text :=
  trim_eq_self_iff.mpr (isTrimmed_trim text)

/-- Nothing is left of a text when all of it is blank. -/
theorem trim_eq_nil_iff {text : List Char} : trim text = [] ↔ ∀ c ∈ text, isBlank c = true := by
  rw [trim, trimEnd_eq_rdropWhile, List.rdropWhile_eq_nil_iff]
  constructor
  · intro h c hc
    rw [← List.takeWhile_append_dropWhile (p := isBlank) (l := text), List.mem_append] at hc
    rcases hc with hfront | hrest
    · exact List.mem_takeWhile_imp hfront
    · exact h c hrest
  · intro h c hc
    exact h c ((List.dropWhile_suffix isBlank).subset hc)

/-- A string is left as it is when its characters are trimmed. -/
theorem trimmed_eq_self_iff {s : String} : trimmed s = s ↔ IsTrimmed s.toList := by
  rw [trimmed, ← trim_eq_self_iff]
  constructor
  · intro h
    simpa using congrArg String.toList h
  · intro h
    rw [h, String.ofList_toList]

/-- The characters of a trimmed string. -/
@[simp] theorem toList_trimmed (s : String) : (trimmed s).toList = trim s.toList := by
  simp [trimmed]

end FilterRules.Text
