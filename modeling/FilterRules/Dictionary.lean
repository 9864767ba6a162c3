/-!
# Entries under text keys

A dictionary is a list of keyed entries in increasing order of key, no key twice. Keys are
ordered by code point, which is also the order of their UTF-8 bytes. Insertion keeps the order
and overwrites the entry that the key had, so that the last write under a key wins.
-/

namespace FilterRules.Dictionary

variable {α : Type}

/-- Put `value` under `key`, in place of the entry that the key had. -/
def insert (key : String) (value : α) : List (String × α) → List (String × α)
  | [] => [(key, value)]
  | (other, entry) :: rest =>
    if key = other then (key, value) :: rest
    else if key < other then (key, value) :: (other, entry) :: rest
    else (other, entry) :: insert key value rest

/-- The dictionary of a list of writes, carried out from left to right. -/
def ofWrites (writes : List (String × α)) : List (String × α) :=
  writes.foldl (fun entries write => insert write.1 write.2 entries) []

/-- The entry under `key`, if it has one. -/
def find? (key : String) : List (String × α) → Option α
  | [] => none
  | (other, entry) :: rest => if key = other then some entry else find? key rest

/-- A key that was just written holds what was written. -/
@[simp] theorem find?_insert_self (key : String) (value : α) (entries : List (String × α)) :
    find? key (insert key value entries) = some value := by
  induction entries with
  | nil => simp [insert, find?]
  | cons head rest ih =>
    obtain ⟨other, entry⟩ := head
    by_cases h : key = other
    · simp [insert, find?, h]
    · by_cases hlt : key < other
      · simp [insert, find?, h, hlt]
      · simp [insert, find?, h, hlt, ih]

/-- A write leaves the entries under all other keys alone. -/
theorem find?_insert_of_ne {key asked : String} (h : asked ≠ key) (value : α)
    (entries : List (String × α)) :
    find? asked (insert key value entries) = find? asked entries := by
  induction entries with
  | nil => simp [insert, find?, h]
  | cons head rest ih =>
    obtain ⟨other, entry⟩ := head
    by_cases hk : key = other
    · subst hk
      simp [insert, find?, h]
    · by_cases hlt : key < other
      · simp [insert, find?, hk, hlt, h]
      · simp [insert, find?, hk, hlt, ih]

/-- Behind some writes a key holds what they put under it, or else what it held before. -/
theorem find?_foldl_insert (asked : String) (entries writes : List (String × α)) :
    find? asked (writes.foldl (fun entries write => insert write.1 write.2 entries) entries) =
      (find? asked (ofWrites writes)).or (find? asked entries) := by
  induction writes generalizing entries with
  | nil => rfl
  | cons write writes ih =>
    rw [ofWrites, List.foldl_cons, List.foldl_cons, ih, ih (insert write.1 write.2 []),
      Option.or_assoc]
    congr 1
    by_cases h : asked = write.1
    · rw [h, find?_insert_self, find?_insert_self, Option.some_or]
    · rw [find?_insert_of_ne h, find?_insert_of_ne h, find?, Option.none_or]

/-- A key holds what the later writes put under it, or else what the earlier ones did. -/
theorem find?_ofWrites_append (asked : String) (earlier later : List (String × α)) :
    find? asked (ofWrites (earlier ++ later)) =
      (find? asked (ofWrites later)).or (find? asked (ofWrites earlier)) := by
  have hfold : ofWrites (earlier ++ later) =
      later.foldl (fun entries write => insert write.1 write.2 entries) (ofWrites earlier) :=
    List.foldl_append
  rw [hfold, find?_foldl_insert]

/-- A write under a new key adds an entry to those that there are. -/
theorem insert_perm {key : String} {entries : List (String × α)} (value : α)
    (h : key ∉ entries.map Prod.fst) :
    List.Perm (insert key value entries) ((key, value) :: entries) := by
  induction entries with
  | nil => exact .refl _
  | cons head rest ih =>
    obtain ⟨other, entry⟩ := head
    simp only [List.map_cons, List.mem_cons, not_or] at h
    rw [insert, if_neg h.1]
    split
    case isTrue => exact .refl _
    case isFalse => exact ((ih h.2).cons _).trans (.swap ..)

/-- Writes under new and pairwise different keys add their entries to those that there are. -/
theorem foldl_insert_perm {entries writes : List (String × α)}
    (h : ((entries ++ writes).map Prod.fst).Nodup) :
    List.Perm (writes.foldl (fun entries write => insert write.1 write.2 entries) entries)
      (entries ++ writes) := by
  induction writes generalizing entries with
  | nil => simp
  | cons write writes ih =>
    have hmoved : List.Perm (entries ++ write :: writes) (write :: (entries ++ writes)) :=
      List.perm_middle
    have hfront : ((write :: (entries ++ writes)).map Prod.fst).Nodup :=
      (hmoved.map Prod.fst).nodup_iff.mp h
    have hnew : write.1 ∉ entries.map Prod.fst := by
      rw [List.map_cons, List.nodup_cons, List.map_append, List.mem_append, not_or] at hfront
      exact hfront.1.1
    have hinsert := (insert_perm write.2 hnew).append_right writes
    refine (ih ?_).trans (hinsert.trans hmoved.symm)
    exact (hinsert.map Prod.fst).nodup_iff.mpr hfront

/-- The dictionary of writes under pairwise different keys has all of them as its entries. -/
theorem ofWrites_perm {writes : List (String × α)} (h : (writes.map Prod.fst).Nodup) :
    List.Perm (ofWrites writes) writes :=
  foldl_insert_perm h

/-- The dictionary of two writes under different keys holds them in one order or the other. -/
theorem ofWrites_pair {first second : String} (h : first ≠ second) (value other : α) :
    ofWrites [(first, value), (second, other)] = [(first, value), (second, other)] ∨
      ofWrites [(first, value), (second, other)] = [(second, other), (first, value)] := by
  by_cases hlt : second < first
  · right
    simp [ofWrites, insert, h.symm, hlt]
  · left
    simp [ofWrites, insert, h.symm, hlt]

end FilterRules.Dictionary
