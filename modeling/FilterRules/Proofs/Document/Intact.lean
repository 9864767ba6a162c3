import FilterRules.Proofs.Document.Acceptance
import FilterRules.Proofs.Document.Rewriting

/-!
# Templates stay intact

A slot owns its member only by an index into the table. Whatever rules a template is made of, in order
or not, every step leaves the indices of the slots different from each other and the members at them
in the table. So no member is ever missing when it is taken out, a step never meets the mark of a group
among the slots that it reduces, and there are at most as many steps as groups that begin.
-/

namespace FilterRules

namespace Template

/-- The indices of the slots are pairwise distinct, and the table holds a member at each of them. -/
structure IsIntact (template : Template) : Prop where
  /-- No index stands in two slots. -/
  distinct : (Slot.indices template.slots).Nodup
  /-- No member of a slot was taken out. -/
  held : ∀ index ∈ Slot.indices template.slots, ∃ member,
    template.members[index]? = some (some member)

/-- A step cannot go wrong in its bookkeeping, and neither can reading off the query. -/
structure IsSafe (template : Template) (schema : Schema) : Prop where
  /-- Slots own their members. -/
  intact : template.IsIntact
  /-- No group begins or ends among the slots that a step reduces. -/
  marks : ∀ inner, template.Reduces inner → Slot.opening ∉ inner ∧ Slot.closing ∉ inner
  /-- The only fault of these slots is that they have two different connectives. -/
  fault : ∀ inner error, template.Reduces inner → contents none inner = .error error →
    error = .structural .mixedConnectives none
  /-- The members of these slots can be taken out of the table. -/
  taken : ∀ inner connective indices, template.Reduces inner →
    contents none inner = .ok (connective, indices) →
      ∃ group left, takeAll template.members indices = .ok (group, left)
  /-- A step takes the beginning of one group away. -/
  fewer : ∀ next, template.step schema = .ok (some next) → next.openings + 1 = template.openings
  /-- A single member can be taken out of the table. -/
  single : ∀ index, template.slots = [.member index] →
    ∃ member left, take template.members index = .ok (member, left)

/-- A run of a number of steps. -/
inductive Run (schema : Schema) (start : Template) : Nat → Template → Prop
  /-- No step. -/
  | start : Run schema start 0 start
  /-- One step more. -/
  | step {count : Nat} {template next : Template} (hrun : Run schema start count template)
      (hstep : template.step schema = .ok (some next)) : Run schema start (count + 1) next

variable {schema : Schema} {template next start : Template} {rules : List Rule}
  {table : List (Option Member)} {slots : List Slot} {count : Nat}

/-- Slots whose members are in the table stand for pieces. -/
theorem exists_pieces_of_held
    (h : ∀ index ∈ Slot.indices slots, ∃ member, table[index]? = some (some member)) :
    ∃ pieces, List.Forall₂ (Slot.Shows table) slots pieces := by
  induction slots with
  | nil => exact ⟨[], .nil⟩
  | cons slot rest ih =>
    cases slot with
    | opening =>
      obtain ⟨pieces, hpieces⟩ := ih h
      exact ⟨_, .cons .opening hpieces⟩
    | closing =>
      obtain ⟨pieces, hpieces⟩ := ih h
      exact ⟨_, .cons .closing hpieces⟩
    | join connective =>
      obtain ⟨pieces, hpieces⟩ := ih h
      exact ⟨_, .cons (.join connective) hpieces⟩
    | member index =>
      obtain ⟨⟨member, hmember⟩, hrest⟩ := List.forall_mem_cons.mp h
      obtain ⟨pieces, hpieces⟩ := ih hrest
      exact ⟨_, .cons (.member hmember) hpieces⟩

/-- A template is intact exactly when it shows some pieces. -/
theorem isIntact_iff_shows : template.IsIntact ↔ ∃ pieces, template.Shows pieces := by
  constructor
  · intro h
    obtain ⟨pieces, hpieces⟩ := exists_pieces_of_held h.held
    exact ⟨pieces, hpieces, h.distinct⟩
  · rintro ⟨pieces, hshows⟩
    refine ⟨hshows.distinct, fun index hindex => ?_⟩
    obtain ⟨member, _, hmember⟩ :=
      Outcome.exists_mem_of_forall₂ (Slot.members_at_indices hshows.each) hindex
    exact ⟨member, hmember⟩

/-- A step leaves an intact template. -/
theorem IsIntact.step (h : template.IsIntact) (hstep : template.step schema = .ok (some next)) :
    next.IsIntact := by
  obtain ⟨pieces, hshows⟩ := isIntact_iff_shows.mp h
  obtain ⟨left, _, hleft⟩ := hshows.exists_step hstep
  exact isIntact_iff_shows.mpr ⟨left, hleft⟩

/-- A run leaves an intact template. -/
theorem IsIntact.run (h : start.IsIntact) (hrun : Run schema start count template) :
    template.IsIntact := by
  induction hrun with
  | start => exact h
  | step _ hstep ih => exact ih.step hstep

/-- The template of a rule list is intact. -/
theorem isIntact_of_ofRules (h : ofRules rules schema = .ok start) : start.IsIntact := by
  obtain ⟨pieces, hpieces⟩ := Rule.exists_pieces (haveClauses_of_layOut h)
  have hempty : Shows ⟨[], []⟩ [] := ⟨.nil, List.nodup_nil⟩
  obtain ⟨found, hfound, hshows⟩ := exists_layOut hpieces hempty
  obtain rfl : found = start := Except.ok.inj (hfound.symm.trans h)
  exact isIntact_iff_shows.mpr ⟨pieces, by simpa using hshows⟩

/-- A template has as many beginnings of groups as its rules behind the slots in front. -/
theorem openings_of_layOut (h : layOut slots table schema rules = .ok template) :
    template.openings = slots.count .opening + rules.count (.separator .opening) := by
  induction rules generalizing slots table with
  | nil =>
    obtain rfl := Except.ok.inj h
    rfl
  | cons rule rest ih =>
    match rule with
    | .separator .opening =>
      rw [ih h]
      simp; omega
    | .separator .closing =>
      rw [ih h]
      simp
    | .logical connective =>
      rw [ih h]
      simp
    | .criteria criteria =>
      obtain ⟨clause, _, h⟩ := Outcome.bind_eq_ok_iff.mp h
      rw [ih h]
      simp

/-- Each step of a run takes away the beginning of one group. -/
theorem Run.openings (h : Run schema start count template) :
    count + template.openings = start.openings := by
  induction h with
  | start => exact Nat.zero_add _
  | step _ hstep ih =>
    have hfewer := openings_step hstep
    omega

/-- The slots that a step of an intact template reduces are intact over its table. -/
theorem IsIntact.of_reduces (h : template.IsIntact) (hreduces : template.Reduces slots) :
    IsIntact ⟨slots, template.members⟩ := by
  obtain ⟨before, after, hslots, _⟩ := hreduces.exists_slots_eq
  have hpart : (Slot.indices slots).Sublist (Slot.indices template.slots) := by
    rw [hslots, Slot.indices_append, Slot.indices, Slot.indices_append]
    exact (List.sublist_append_left _ _).trans (List.sublist_append_right _ _)
  exact ⟨h.distinct.sublist hpart, fun index hindex => h.held index (hpart.subset hindex)⟩

/-- The contents of the slots that a step of an intact template reduces. -/
theorem IsIntact.exists_contents_eq (h : template.IsIntact) (hreduces : template.Reduces slots) :
    ∃ connectives, contents none slots = (Connective.agreed connectives).map
      fun connective => (connective, Slot.indices slots) := by
  obtain ⟨_, _, _, ⟨hopening, hclosing⟩, _⟩ := hreduces.exists_slots_eq
  obtain ⟨pieces, hshows⟩ := isIntact_iff_shows.mp (h.of_reduces hreduces)
  exact ⟨_, contents_eq hshows.each (Slot.isInner_of_shows hshows.each hopening hclosing) none⟩

/-- The members of intact slots can be taken out of the table. -/
theorem IsIntact.exists_takeAll (h : IsIntact ⟨slots, table⟩) :
    ∃ group left, takeAll table (Slot.indices slots) = .ok (group, left) := by
  obtain ⟨pieces, hshows⟩ := isIntact_iff_shows.mp h
  obtain ⟨left, htake, _⟩ := takeAll_eq (Slot.members_at_indices hshows.each) h.distinct
  exact ⟨_, left, htake⟩

/-- An intact template is safe. -/
theorem IsIntact.isSafe (h : template.IsIntact) : template.IsSafe schema := by
  refine ⟨h, ?_, ?_, ?_, fun _ => openings_step, ?_⟩
  · intro inner hreduces
    obtain ⟨_, _, _, hmarks, _⟩ := hreduces.exists_slots_eq
    exact hmarks
  · intro inner error hreduces herror
    obtain ⟨connectives, hcontents⟩ := h.exists_contents_eq hreduces
    rw [hcontents] at herror
    exact (Connective.agreed_eq_error (Outcome.map_eq_error_iff.mp herror)).1
  · intro inner connective indices hreduces hfound
    obtain ⟨connectives, hcontents⟩ := h.exists_contents_eq hreduces
    rw [hcontents] at hfound
    obtain ⟨_, _, hpair⟩ := Outcome.map_eq_ok_iff.mp hfound
    obtain ⟨_, rfl⟩ := Prod.mk.inj hpair
    exact (h.of_reduces hreduces).exists_takeAll
  · intro index hslots
    have hindex : index ∈ Slot.indices template.slots := by simp [hslots, Slot.indices]
    obtain ⟨member, hmember⟩ := h.held index hindex
    exact ⟨member, _, by rw [take, hmember]⟩

/-- A run goes on to a template without a step, which is what reduction ends with, or with a fault, which
is the fault of reduction. -/
theorem Run.exists_last (h : Run schema start count template) :
    ∃ total last, Run schema start total last ∧
      (last.step schema = .ok none ∧ template.reduce schema = .ok last ∨
        ∃ error, last.step schema = .error error ∧ template.reduce schema = .error error) := by
  induction template using Template.reduce.induct schema generalizing count with
  | case1 template error hstep =>
    exact ⟨count, template, h, Or.inr ⟨error, hstep, reduce_of_error hstep⟩⟩
  | case2 template hstep =>
    exact ⟨count, template, h, Or.inl ⟨hstep, reduce_of_none hstep⟩⟩
  | case3 template next hstep ih =>
    rw [reduce_of_step hstep]
    exact ih (h.step hstep)

/-- The template of any rule list, in order or not, is safe at every step of its reduction; with each
step one group less begins in it, and reduction ends after at most as many steps as groups begin in
the list. -/
theorem isSafe_of_run (hstart : ofRules rules schema = .ok start) :
    (∀ count template, Run schema start count template →
      template.IsSafe schema ∧
        count + template.openings = rules.count (.separator .opening)) ∧
    ∃ count last, Run schema start count last ∧ count ≤ rules.count (.separator .opening) ∧
      (last.step schema = .ok none ∧ start.reduce schema = .ok last ∨
        ∃ error, last.step schema = .error error ∧ start.reduce schema = .error error) := by
  have hcount : start.openings = rules.count (.separator .opening) := by
    rw [openings_of_layOut hstart, List.count_nil, Nat.zero_add]
  have hopenings : ∀ count template, Run schema start count template →
      count + template.openings = rules.count (.separator .opening) :=
    fun count template hrun => hrun.openings.trans hcount
  constructor
  · intro count template hrun
    have hintact := (isIntact_of_ofRules hstart).run hrun
    exact ⟨hintact.isSafe, hopenings count template hrun⟩
  · obtain ⟨count, last, hrun, hlast⟩ := Run.start.exists_last
    have hsum := hopenings count last hrun
    exact ⟨count, last, hrun, by omega, hlast⟩

/-- A list that is not in order: an end without a beginning in front, and a connective behind the last
group. -/
theorem isSafe_of_run_unordered :
    let schema : Schema := ⟨[("type", .ofStrings)]⟩
    let book : Criteria := ⟨"type", .equal, .value (.text "book"), false⟩
    let rules : List Rule := [.separator .closing, .criteria book, .separator .opening,
      .separator .opening, .separator .closing, .criteria book, .logical .and, .separator .opening,
      .criteria book, .separator .closing, .separator .closing, .logical .or]
    let clause : Member := .clause (.mk "type" (.compare .equal (.text "book")))
    let start : Template := ⟨[.closing, .member 0, .opening, .opening, .closing, .member 1,
      .join .and, .opening, .member 2, .closing, .closing, .join .or],
      [some clause, some clause, some clause]⟩
    ofRules rules schema = .ok start ∧
    (∀ count template, Run schema start count template →
      template.IsSafe schema ∧
        count + template.openings = rules.count (.separator .opening)) ∧
    ∃ count last, Run schema start count last ∧ count ≤ rules.count (.separator .opening) ∧
      (last.step schema = .ok none ∧ start.reduce schema = .ok last ∨
        ∃ error, last.step schema = .error error ∧ start.reduce schema = .error error) := by
  intro schema book rules clause start
  have hbook : book.clause schema = .ok (.mk "type" (.compare .equal (.text "book"))) := by cbv
  have hstart : ofRules rules schema = .ok start := by
    simp [rules, start, clause, ofRules, layOut, hbook]
  exact ⟨hstart, isSafe_of_run hstart⟩

end Template

end FilterRules
