import FilterRules.Document.Template
import FilterRules.Proofs.Outcome
import Mathlib.Data.List.Forall2

/-!
# Templates without their table

A template shows a list of pieces when each of its slots stands for the piece at the same place: a
slot with an index stands for the member that the table holds there, and no index stands in two
slots. A step then rewrites the pieces: the innermost group that begins last gives way to what its
members come down to, and the members that were taken out of the table are those of that group.
-/

namespace FilterRules

/-- A slot with its member in place of an index. -/
inductive Piece where
  /-- The beginning of a group. -/
  | opening
  /-- The end of a group. -/
  | closing
  /-- A connective. -/
  | join (connective : Connective)
  /-- A member. -/
  | member (member : Member)

namespace Piece

/-- Whether a piece can stand in a group without groups inside. -/
def isInner : Piece → Bool
  | .opening => false
  | .closing => false
  | .join _ => true
  | .member _ => true

/-- The connectives among some pieces. -/
def joins : List Piece → List Connective
  | [] => []
  | .join connective :: rest => connective :: joins rest
  | .opening :: rest => joins rest
  | .closing :: rest => joins rest
  | .member _ :: rest => joins rest

/-- The members among some pieces. -/
def members : List Piece → List Member
  | [] => []
  | .member held :: rest => held :: members rest
  | .opening :: rest => members rest
  | .closing :: rest => members rest
  | .join _ :: rest => members rest

variable (front back : List Piece) (connectives : List Connective)

/-- The connectives among pieces in two parts. -/
theorem joins_append : joins (front ++ back) = joins front ++ joins back := by
  induction front with
  | nil => rfl
  | cons piece front ih => cases piece <;> simp [joins, ih]

/-- The members among pieces in two parts. -/
theorem members_append : members (front ++ back) = members front ++ members back := by
  induction front with
  | nil => rfl
  | cons piece front ih => cases piece <;> simp [members, ih]

/-- The connectives among connectives are all of them. -/
theorem joins_map_join : joins (connectives.map .join) = connectives := by
  induction connectives with
  | nil => rfl
  | cons connective connectives ih => simp [joins, ih]

/-- There are no members among connectives. -/
theorem members_map_join : members (connectives.map .join) = [] := by
  induction connectives with
  | nil => rfl
  | cons connective connectives ih => simp [members, ih]

end Piece

/-- The one connective that some connectives are, if they are one. -/
def Connective.agreed : List Connective → Except CompileError (Option Connective)
  | [] => .ok none
  | first :: others =>
    if others.all (· = first) then .ok (some first)
    else .error (.structural .mixedConnectives none)

/-- Connectives that are all the same agree on it. -/
theorem Connective.agreed_eq_some {connectives : List Connective} {connective : Connective}
    (h : ∀ found ∈ connectives, found = connective) (hne : connectives ≠ []) :
    agreed connectives = .ok (some connective) := by
  cases connectives with
  | nil => exact absurd rfl hne
  | cons first others =>
    obtain ⟨rfl, hothers⟩ := List.forall_mem_cons.mp h
    have hall : others.all (· = first) := by simpa using hothers
    rw [agreed, if_pos hall]

/-- What the members of a group with a connective come down to. -/
def Member.joined (schema : Schema) :
    Option Connective → List Member → Except CompileError (Option Member)
  | none, [] => .ok none
  | none, [member] => .ok (some member)
  | none, _ => .error (.emission .malformedExpression)
  | some connective, members =>
    if members.length < 2 then .error (.emission .minimumCriteria)
    else .ok (some (.query (resolveGroup connective members schema)))

/-- What the inner pieces of a group come down to. -/
def Piece.reduced (schema : Schema) (inner : List Piece) : Except CompileError (Option Member) := do
  let connective ← Connective.agreed (joins inner)
  Member.joined schema connective (members inner)

/-- A slot stands for a piece when the table holds the member at the slot's index. -/
inductive Slot.Shows (table : List (Option Member)) : Slot → Piece → Prop
  /-- The beginning of a group. -/
  | opening : Slot.Shows table .opening .opening
  /-- The end of a group. -/
  | closing : Slot.Shows table .closing .closing
  /-- A connective. -/
  | join (connective : Connective) : Slot.Shows table (.join connective) (.join connective)
  /-- A member in the table. -/
  | member {index : Nat} {member : Member} (h : table[index]? = some (some member)) :
      Slot.Shows table (.member index) (.member member)

/-- The indices in some slots. -/
def Slot.indices : List Slot → List Nat
  | [] => []
  | .member index :: rest => index :: indices rest
  | .opening :: rest => indices rest
  | .closing :: rest => indices rest
  | .join _ :: rest => indices rest

/-- The indices of slots in two parts. -/
theorem Slot.indices_append (front back : List Slot) :
    Slot.indices (front ++ back) = Slot.indices front ++ Slot.indices back := by
  induction front with
  | nil => rfl
  | cons slot front ih => cases slot <;> simp [Slot.indices, ih]

namespace Slot

variable {table left : List (Option Member)} {slots : List Slot} {pieces : List Piece}

/-- No slot begins a group where no piece does. -/
theorem opening_not_mem (h : List.Forall₂ (Shows table) slots pieces)
    (hpieces : Piece.opening ∉ pieces) : Slot.opening ∉ slots := by
  induction h with
  | nil => simp
  | cons hslot _ ih =>
    simp only [List.mem_cons, not_or] at hpieces ⊢
    refine ⟨?_, ih hpieces.2⟩
    rintro rfl
    cases hslot
    exact hpieces.1 rfl

/-- No slot ends a group where all pieces are inner ones. -/
theorem closing_not_mem (h : List.Forall₂ (Shows table) slots pieces)
    (hpieces : ∀ piece ∈ pieces, piece.isInner) : Slot.closing ∉ slots := by
  induction h with
  | nil => simp
  | cons hslot _ ih =>
    simp only [List.forall_mem_cons] at hpieces
    simp only [List.mem_cons, not_or]
    refine ⟨?_, ih hpieces.2⟩
    rintro rfl
    cases hslot
    simp [Piece.isInner] at hpieces

/-- The table holds the members of the pieces at the indices of the slots. -/
theorem members_at_indices (h : List.Forall₂ (Shows table) slots pieces) :
    List.Forall₂ (fun index member => table[index]? = some (some member)) (indices slots)
      (Piece.members pieces) := by
  induction h with
  | nil => exact .nil
  | cons hslot _ ih =>
    cases hslot with
    | opening => exact ih
    | closing => exact ih
    | join connective => exact ih
    | member hmember => exact .cons hmember ih

/-- Every index in slots that show pieces is one of the table. -/
theorem index_lt (h : List.Forall₂ (Shows table) slots pieces) {index : Nat}
    (hindex : index ∈ indices slots) : index < table.length := by
  induction h with
  | nil => simp [indices] at hindex
  | cons hslot _ ih =>
    cases hslot with
    | opening => exact ih hindex
    | closing => exact ih hindex
    | join connective => exact ih hindex
    | member hmember =>
      rcases List.mem_cons.mp hindex with rfl | hrest
      · exact (List.getElem?_eq_some_iff.mp hmember).1
      · exact ih hrest

/-- Slots show the same pieces over a table that agrees on their indices. -/
theorem shows_congr (h : List.Forall₂ (Shows table) slots pieces)
    (hagree : ∀ index ∈ indices slots, left[index]? = table[index]?) :
    List.Forall₂ (Shows left) slots pieces := by
  induction h with
  | nil => exact .nil
  | cons hslot _ ih =>
    cases hslot with
    | opening => exact .cons .opening (ih hagree)
    | closing => exact .cons .closing (ih hagree)
    | join connective => exact .cons (.join connective) (ih hagree)
    | member hmember =>
      simp only [indices, List.forall_mem_cons] at hagree
      exact .cons (.member (hagree.1.trans hmember)) (ih hagree.2)

end Slot

namespace Template

variable {table : List (Option Member)} {schema : Schema}

/-- The contents of a group: the connective that its connectives agree on, and its indices. -/
theorem contents_eq {slots : List Slot} {pieces : List Piece}
    (h : List.Forall₂ (Slot.Shows table) slots pieces) (hinner : ∀ piece ∈ pieces, piece.isInner)
    (found : Option Connective) :
    contents found slots = (Connective.agreed (found.toList ++ Piece.joins pieces)).map
      fun connective => (connective, Slot.indices slots) := by
  induction h generalizing found with
  | nil => cases found <;> simp [contents, Piece.joins, Connective.agreed, Except.map, Slot.indices]
  | cons hslot _ ih =>
    simp only [List.forall_mem_cons] at hinner
    cases hslot with
    | opening => simp [Piece.isInner] at hinner
    | closing => simp [Piece.isInner] at hinner
    | member hmember =>
      simp only [contents, ih hinner.2 found, Piece.joins, Slot.indices]
      cases Connective.agreed _ <;> rfl
    | join connective =>
      cases found with
      | none => exact ih hinner.2 (some connective)
      | some other =>
        by_cases hsame : other = connective
        · subst hsame
          simp [contents, ih hinner.2, Piece.joins, Slot.indices, Connective.agreed]
        · have hother : ¬ connective = other := fun h => hsame h.symm
          simp [contents, hsame, hother, Piece.joins, Connective.agreed, Except.map]

/-- Taking out the members at different indices empties their places and no others. -/
theorem takeAll_eq {indices : List Nat} {members : List Member}
    (h : List.Forall₂ (fun index member => table[index]? = some (some member)) indices members)
    (hdistinct : indices.Nodup) :
    ∃ left, takeAll table indices = .ok (members, left) ∧ left.length = table.length ∧
      ∀ place ∉ indices, left[place]? = table[place]? := by
  induction indices generalizing table members with
  | nil =>
    cases h
    exact ⟨table, rfl, rfl, fun _ _ => rfl⟩
  | cons index indices ih =>
    cases h with
    | @cons _ member _ members hmember hrest =>
      obtain ⟨hnew, hdistinct⟩ := List.nodup_cons.mp hdistinct
      have hset : List.Forall₂ (fun place found => (table.set index none)[place]? =
          some (some found)) indices members := by
        have hother : ∀ place ∈ indices, place ≠ index := fun place hplace h => hnew (h ▸ hplace)
        refine ((List.forall₂_and_left indices members).mpr ⟨hother, hrest⟩).imp ?_
        rintro place found ⟨hne, hfound⟩
        rwa [List.getElem?_set_ne hne.symm]
      obtain ⟨left, htake, hlength, hrest⟩ := ih hset hdistinct
      refine ⟨left, ?_, by simpa using hlength, ?_⟩
      · simp [takeAll, take, hmember, htake]
      · intro place hplace
        simp only [List.mem_cons, not_or] at hplace
        rw [hrest place hplace.2, List.getElem?_set_ne (fun h => hplace.1 h.symm)]

/-- What takes the place of a group: a slot for the member that the group comes down to. The slot's
index is one of the group's or new, and no place outside the group changes. -/
structure Settles (table left : List (Option Member)) (group : List Nat) (slot : Option Slot)
    (found : Option Member) : Prop where
  /-- The slot stands for the member, if there is one. -/
  shows : List.Forall₂ (Slot.Shows left) slot.toList (found.map Piece.member).toList
  /-- The slot's index was in the group or outside the table. -/
  fresh : ∀ index ∈ Slot.indices slot.toList, index ∈ group ∨ table.length ≤ index
  /-- The table changes in the places of the group alone. -/
  outside : ∀ place < table.length, place ∉ group → left[place]? = table[place]?

/-- A group without a connective gives way to its only member, or to nothing. -/
theorem joinMembers_none {indices : List Nat} {members : List Member} {found : Option Member}
    (hmembers : List.Forall₂ (fun index member => table[index]? = some (some member)) indices
      members)
    (hjoined : Member.joined schema none members = .ok found) :
    ∃ slot, joinMembers table schema none indices = .ok (slot, table) ∧
      Settles table table indices slot found := by
  cases hmembers with
  | nil =>
    obtain rfl : none = found := Except.ok.inj hjoined
    exact ⟨none, rfl, .nil, by simp [Slot.indices], fun _ _ _ => rfl⟩
  | @cons index member _ _ hmember hrest =>
    cases hrest with
    | nil =>
      obtain rfl : some member = found := Except.ok.inj hjoined
      exact ⟨some (.member index), rfl, .cons (.member hmember) .nil, by simp [Slot.indices],
        fun _ _ _ => rfl⟩
    | cons hsecond hrest => simp [Member.joined] at hjoined

/-- A group with a connective and enough members gives way to a new member. -/
theorem joinMembers_some {indices : List Nat} {members : List Member} {connective : Connective}
    (hmembers : List.Forall₂ (fun index member => table[index]? = some (some member)) indices
      members)
    (hdistinct : indices.Nodup) (hmany : ¬ members.length < 2) :
    ∃ slot left, joinMembers table schema (some connective) indices = .ok (slot, left) ∧
      Settles table left indices slot (some (.query (resolveGroup connective members schema))) := by
  obtain ⟨left, htake, hlength, hrest⟩ := takeAll_eq hmembers hdistinct
  have hcount := hmembers.length_eq
  match indices, hcount with
  | [], hcount => exact absurd (hcount ▸ Nat.zero_lt_two) hmany
  | [_], hcount => exact absurd (hcount ▸ Nat.one_lt_two) hmany
  | first :: second :: rest, _ =>
    refine ⟨_, _, by simp only [joinMembers, htake, Outcome.ok_bind]; rfl, ?_, ?_, ?_⟩
    · exact .cons (.member (by simp)) .nil
    · simp [Slot.indices, hlength]
    · intro place hplace houtside
      rw [List.getElem?_append_left (by omega), hrest place houtside]

/-- A group with members that cannot be joined has the same fault over the table. -/
theorem joinMembers_error {indices : List Nat} {members : List Member}
    {connective : Option Connective} {error : CompileError}
    (hcount : indices.length = members.length)
    (hjoined : Member.joined schema connective members = .error error) :
    joinMembers table schema connective indices = .error error := by
  cases connective with
  | none =>
    match members, indices, hcount with
    | [], [], _ => simp [Member.joined] at hjoined
    | [_], [_], _ => simp [Member.joined] at hjoined
    | _ :: _ :: _, _ :: _ :: _, _ => simpa [Member.joined, joinMembers] using hjoined
  | some connective =>
    match members, indices, hcount with
    | [], [], _ => simpa [Member.joined, joinMembers] using hjoined
    | [_], [_], _ => simpa [Member.joined, joinMembers] using hjoined
    | _ :: _ :: rest, _ :: _ :: _, _ =>
      have hmany : ¬ rest.length + 1 + 1 < 2 := by omega
      simp [Member.joined, hmany] at hjoined

/-- Reducing the slots of a group joins the members of the pieces that they show. -/
theorem reduceGroup_eq (schema : Schema) {slots : List Slot} {pieces : List Piece}
    (h : List.Forall₂ (Slot.Shows table) slots pieces) (hinner : ∀ piece ∈ pieces, piece.isInner) :
    reduceGroup slots table schema = (do
      let connective ← Connective.agreed (Piece.joins pieces)
      joinMembers table schema connective (Slot.indices slots)) := by
  have hcontents := contents_eq h hinner none
  rw [Option.toList_none, List.nil_append] at hcontents
  rw [reduceGroup, hcontents]
  cases Connective.agreed (Piece.joins pieces) <;> rfl

/-- The slots of a group give way to one for the member that the pieces come down to. -/
theorem reduceGroup_ok {slots : List Slot} {pieces : List Piece} {found : Option Member}
    (h : List.Forall₂ (Slot.Shows table) slots pieces) (hinner : ∀ piece ∈ pieces, piece.isInner)
    (hdistinct : (Slot.indices slots).Nodup) (hfound : Piece.reduced schema pieces = .ok found) :
    ∃ slot left, reduceGroup slots table schema = .ok (slot, left) ∧
      Settles table left (Slot.indices slots) slot found := by
  obtain ⟨connective, hagreed, hjoined⟩ := Outcome.bind_eq_ok_iff.mp hfound
  have hmembers := Slot.members_at_indices h
  rw [reduceGroup_eq schema h hinner, hagreed, Outcome.ok_bind]
  cases connective with
  | none =>
    obtain ⟨slot, hslot, hsettles⟩ := joinMembers_none hmembers hjoined
    exact ⟨slot, table, hslot, hsettles⟩
  | some connective =>
    simp only [Member.joined] at hjoined
    split at hjoined
    case isTrue => simp at hjoined
    case isFalse hmany =>
      obtain rfl := Except.ok.inj hjoined
      exact joinMembers_some hmembers hdistinct hmany

/-- The slots of a group have the fault of their pieces. -/
theorem reduceGroup_error {slots : List Slot} {pieces : List Piece} {error : CompileError}
    (h : List.Forall₂ (Slot.Shows table) slots pieces) (hinner : ∀ piece ∈ pieces, piece.isInner)
    (herror : Piece.reduced schema pieces = .error error) :
    reduceGroup slots table schema = .error error := by
  rw [reduceGroup_eq schema h hinner]
  rw [Piece.reduced] at herror
  cases hagreed : Connective.agreed (Piece.joins pieces) with
  | error other =>
    rw [hagreed, Outcome.error_bind] at herror
    rw [Outcome.error_bind, Except.error.inj herror]
  | ok connective =>
    rw [hagreed, Outcome.ok_bind] at herror
    exact joinMembers_error (Slot.members_at_indices h).length_eq herror

/-- Where no group begins there is no last beginning. -/
theorem lastOpening?_eq_none {slots : List Slot} (hslots : Slot.opening ∉ slots) :
    lastOpening? slots = none := by
  induction slots with
  | nil => rfl
  | cons slot rest ih =>
    simp only [List.mem_cons, not_or] at hslots
    have hslot : ¬ slot = .opening := fun h => hslots.1 h.symm
    simp [lastOpening?, ih hslots.2, hslot]

/-- The last beginning of a group is the one behind which no group begins. -/
theorem lastOpening?_append (before : List Slot) {after : List Slot}
    (hafter : Slot.opening ∉ after) :
    lastOpening? (before ++ Slot.opening :: after) = some (before, after) := by
  induction before with
  | nil => simp [lastOpening?, lastOpening?_eq_none hafter]
  | cons slot before ih => simp [lastOpening?, ih]

/-- The first end of a group is the one in front of which no group ends. -/
theorem firstClosing?_append {before : List Slot} (hbefore : Slot.closing ∉ before)
    (after : List Slot) :
    firstClosing? (before ++ Slot.closing :: after) = some (before, after) := by
  induction before with
  | nil => simp [firstClosing?]
  | cons slot before ih =>
    simp only [List.mem_cons, not_or] at hbefore
    have hslot : ¬ slot = .closing := fun h => hbefore.1 h.symm
    simp [firstClosing?, ih hbefore.2, hslot]

/-- A template shows pieces when its slots stand for them and no index stands in two slots. -/
structure Shows (template : Template) (pieces : List Piece) : Prop where
  /-- Each slot stands for its piece. -/
  each : List.Forall₂ (Slot.Shows template.members) template.slots pieces
  /-- The indices are pairwise distinct. -/
  distinct : (Slot.indices template.slots).Nodup

/-- Slots that show pieces in two parts have two such parts themselves. -/
theorem exists_slots_append {slots : List Slot} {front back : List Piece}
    (h : List.Forall₂ (Slot.Shows table) slots (front ++ back)) :
    ∃ first second, slots = first ++ second ∧ List.Forall₂ (Slot.Shows table) first front ∧
      List.Forall₂ (Slot.Shows table) second back :=
  ⟨slots.take front.length, slots.drop front.length, (List.take_append_drop _ _).symm,
    List.forall₂_take_append _ _ _ h, List.forall₂_drop_append _ _ _ h⟩

/-- A step of a template that shows a group inside which and behind which no group begins reduces
the slots of that group. -/
theorem Shows.exists_group {template : Template} {before inner after : List Piece}
    (h : template.Shows (before ++ Piece.opening :: (inner ++ Piece.closing :: after)))
    (hinner : ∀ piece ∈ inner, piece.isInner) (hafter : Piece.opening ∉ after) :
    ∃ front group back,
      template.step schema = (do
        let (slot, left) ← reduceGroup group template.members schema
        return some ⟨front ++ slot.toList ++ back, left⟩) ∧
      (Slot.indices front ++ (Slot.indices group ++ Slot.indices back)).Nodup ∧
      List.Forall₂ (Slot.Shows template.members) front before ∧
      List.Forall₂ (Slot.Shows template.members) group inner ∧
      List.Forall₂ (Slot.Shows template.members) back after := by
  obtain ⟨front, rest, hslots, hfront, hrest⟩ := exists_slots_append h.each
  cases hrest with
  | cons hopening hrest =>
    cases hopening
    obtain ⟨group, rest, rfl, hgroup, hrest⟩ := exists_slots_append hrest
    cases hrest with
    | @cons _ _ back _ hclosing hback =>
      cases hclosing
      have hno : Piece.opening ∉ inner := fun hmem => by simpa [Piece.isInner] using hinner _ hmem
      have hlast : Slot.opening ∉ group ++ Slot.closing :: back := by
        simp [Slot.opening_not_mem hgroup hno, Slot.opening_not_mem hback hafter]
      have hfirst := Slot.closing_not_mem hgroup hinner
      refine ⟨front, group, back, ?_, ?_, hfront, hgroup, hback⟩
      · simp only [step, hslots, lastOpening?_append front hlast, firstClosing?_append hfirst back]
      · have hdistinct := h.distinct
        rwa [hslots, Slot.indices_append, Slot.indices, Slot.indices_append, Slot.indices]
          at hdistinct

/-- A template with the slot of a member in place of a group shows the pieces with that member in
place of the group. -/
theorem Shows.settle {front group back : List Slot} {left : List (Option Member)}
    {before after : List Piece} {slot : Option Slot} {found : Option Member}
    (hdistinct : (Slot.indices front ++ (Slot.indices group ++ Slot.indices back)).Nodup)
    (hfront : List.Forall₂ (Slot.Shows table) front before)
    (hback : List.Forall₂ (Slot.Shows table) back after)
    (h : Settles table left (Slot.indices group) slot found) :
    Shows ⟨front ++ slot.toList ++ back, left⟩
      (before ++ (found.map Piece.member).toList ++ after) := by
  obtain ⟨hfrontDistinct, hrest, hfrontOther⟩ := List.nodup_append.mp hdistinct
  obtain ⟨_, hbackDistinct, hbackOther⟩ := List.nodup_append.mp hrest
  have hfrontLeft : List.Forall₂ (Slot.Shows left) front before :=
    Slot.shows_congr hfront fun index hindex => h.outside index (Slot.index_lt hfront hindex)
      fun hgroup => hfrontOther index hindex index (by simp [hgroup]) rfl
  have hbackLeft : List.Forall₂ (Slot.Shows left) back after :=
    Slot.shows_congr hback fun index hindex => h.outside index (Slot.index_lt hback hindex)
      fun hgroup => hbackOther index hgroup index hindex rfl
  have hslotDistinct : (Slot.indices slot.toList).Nodup := by
    cases slot with
    | none => simp [Slot.indices]
    | some slot => cases slot <;> simp [Slot.indices]
  constructor
  · exact List.rel_append (List.rel_append hfrontLeft h.shows) hbackLeft
  · simp only [Slot.indices_append, List.append_assoc]
    refine List.nodup_append.mpr ⟨hfrontDistinct, List.nodup_append.mpr ⟨hslotDistinct,
      hbackDistinct, ?_⟩, ?_⟩
    · intro index hindex other hother
      rintro rfl
      rcases h.fresh index hindex with hgroup | hnew
      · exact hbackOther index hgroup index hother rfl
      · exact absurd (Slot.index_lt hback hother) (by omega)
    · intro index hindex other hother
      rintro rfl
      rcases List.mem_append.mp hother with hslot | hother
      · rcases h.fresh index hslot with hgroup | hnew
        · exact hfrontOther index hindex index (by simp [hgroup]) rfl
        · exact absurd (Slot.index_lt hfront hindex) (by omega)
      · exact hfrontOther index hindex index (by simp [hother]) rfl

/-- A step reduces the group that begins last: the group gives way to what its pieces come down
to. -/
theorem step_group {template : Template} {before inner after : List Piece} {found : Option Member}
    (h : template.Shows (before ++ Piece.opening :: (inner ++ Piece.closing :: after)))
    (hinner : ∀ piece ∈ inner, piece.isInner) (hafter : Piece.opening ∉ after)
    (hfound : Piece.reduced schema inner = .ok found) :
    ∃ next, template.step schema = .ok (some next) ∧
      next.Shows (before ++ (found.map Piece.member).toList ++ after) := by
  obtain ⟨front, group, back, hstep, hdistinct, hfront, hgroup, hback⟩ :=
    h.exists_group hinner hafter
  have hgroupDistinct : (Slot.indices group).Nodup :=
    (List.nodup_append.mp (List.nodup_append.mp hdistinct).2.1).1
  obtain ⟨slot, left, hreduced, hsettles⟩ := reduceGroup_ok hgroup hinner hgroupDistinct hfound
  -- The table has changed in the places of the group alone, which no slot around it stands for.
  refine ⟨⟨front ++ slot.toList ++ back, left⟩, ?_, Shows.settle hdistinct hfront hback hsettles⟩
  rw [hstep, hreduced]
  rfl

/-- A step that reduces the group that begins last has the fault of its pieces. -/
theorem step_group_error {template : Template} {before inner after : List Piece}
    {error : CompileError}
    (h : template.Shows (before ++ Piece.opening :: (inner ++ Piece.closing :: after)))
    (hinner : ∀ piece ∈ inner, piece.isInner) (hafter : Piece.opening ∉ after)
    (herror : Piece.reduced schema inner = .error error) :
    template.step schema = .error error := by
  obtain ⟨front, group, back, hstep, _, _, hgroup, _⟩ := h.exists_group hinner hafter
  rw [hstep, reduceGroup_error hgroup hinner herror]
  rfl

/-- A template in which no group begins is reduced. -/
theorem reduce_eq_self {template : Template} {pieces : List Piece} (h : template.Shows pieces)
    (hpieces : Piece.opening ∉ pieces) : template.reduce schema = .ok template := by
  have hstep : template.step schema = .ok none := by
    simp [step, lastOpening?_eq_none (Slot.opening_not_mem h.each hpieces)]
  rw [reduce]
  split <;> simp_all

/-- Reduction goes on behind a step. -/
theorem reduce_of_step {template next : Template} (h : template.step schema = .ok (some next)) :
    template.reduce schema = next.reduce schema := by
  rw [reduce]
  split <;> simp_all

/-- Reduction ends with the fault of a step. -/
theorem reduce_of_error {template : Template} {error : CompileError}
    (h : template.step schema = .error error) : template.reduce schema = .error error := by
  rw [reduce]
  split <;> simp_all

end Template

end FilterRules
