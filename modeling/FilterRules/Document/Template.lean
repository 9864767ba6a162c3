import FilterRules.Document.Clause

/-!
# From rules to a document query

The rules are laid out as a template of slots, with the clauses of the criteria in a table beside
it. A step reduces the innermost group that begins last: its members are taken out of the table,
joined, and put back as one new member, whose slot replaces the group. A group without a
connective gives way to its single member, and to nothing when it is empty. When no group is left,
the template holds the query, or nothing at all for a query that every document satisfies.
-/

namespace FilterRules

/-- A slot of a template. -/
inductive Slot where
  /-- The beginning of a group. -/
  | opening
  /-- The end of a group. -/
  | closing
  /-- A connective. -/
  | join (connective : Connective)
  /-- A member, by its place in the table. -/
  | member (index : Nat)
deriving DecidableEq

/-- A template with its table. -/
structure Template where
  /-- The slots. -/
  slots : List Slot
  /-- The members; one that was taken out leaves its place empty. -/
  members : List (Option Member)

namespace Template

/-- The template of rules, behind the slots and clauses of the rules before them. -/
def layOut (slots : List Slot) (members : List (Option Member)) (schema : Schema) :
    List Rule → Except CompileError Template
  | [] => .ok ⟨slots, members⟩
  | .separator .opening :: rest => layOut (slots ++ [.opening]) members schema rest
  | .separator .closing :: rest => layOut (slots ++ [.closing]) members schema rest
  | .logical connective :: rest => layOut (slots ++ [.join connective]) members schema rest
  | .criteria criteria :: rest => do
    let clause ← criteria.clause schema
    layOut (slots ++ [.member members.length]) (members ++ [some (.clause clause)]) schema rest

/-- The template of a rule list. -/
def ofRules (rules : List Rule) (schema : Schema) : Except CompileError Template :=
  layOut [] [] schema rules

/-- The slots before and after the last beginning of a group. -/
def lastOpening? : List Slot → Option (List Slot × List Slot)
  | [] => none
  | slot :: rest =>
    match lastOpening? rest with
    | some (before, after) => some (slot :: before, after)
    | none => if slot = .opening then some ([], rest) else none

/-- The slots before and after the first end of a group. -/
def firstClosing? : List Slot → Option (List Slot × List Slot)
  | [] => none
  | slot :: rest =>
    if slot = .closing then some ([], rest)
    else (firstClosing? rest).map fun (before, after) => (slot :: before, after)

/-- The connective and the members' places in the slots of a group without groups inside. -/
def contents (found : Option Connective) :
    List Slot → Except CompileError (Option Connective × List Nat)
  | [] => .ok (found, [])
  | .member index :: rest => do
    let (connective, indices) ← contents found rest
    return (connective, index :: indices)
  | .join connective :: rest =>
    match found with
    | none => contents (some connective) rest
    | some other =>
      if other = connective then contents found rest
      else .error (.structural .mixedConnectives none)
  | .opening :: _ => .error (.emission .malformedExpression)
  | .closing :: _ => .error (.emission .malformedExpression)

/-- Take a member out of the table. -/
def take (members : List (Option Member)) (index : Nat) :
    Except CompileError (Member × List (Option Member)) :=
  match members[index]? with
  | some (some member) => .ok (member, members.set index none)
  | _ => .error (.emission .malformedExpression)

/-- Take members out of the table, in order. -/
def takeAll (members : List (Option Member)) :
    List Nat → Except CompileError (List Member × List (Option Member))
  | [] => .ok ([], members)
  | index :: indices => do
    let (member, members) ← take members index
    let (others, members) ← takeAll members indices
    return (member :: others, members)

/-- What takes the place of a group with the given connective and members, if anything does, and
the table after it. -/
def joinMembers (members : List (Option Member)) (schema : Schema) :
    Option Connective → List Nat → Except CompileError (Option Slot × List (Option Member))
  | some _, [] => .error (.emission .minimumCriteria)
  | some _, [_] => .error (.emission .minimumCriteria)
  | some connective, indices => do
    let (group, left) ← takeAll members indices
    let joined := resolveGroup connective group schema
    return (some (.member left.length), left ++ [some (.query joined)])
  | none, [] => .ok (none, members)
  | none, [index] => .ok (some (.member index), members)
  | none, _ => .error (.emission .malformedExpression)

/-- Reduce the slots of a group without groups inside. -/
def reduceGroup (inner : List Slot) (members : List (Option Member)) (schema : Schema) :
    Except CompileError (Option Slot × List (Option Member)) := do
  let (connective, indices) ← contents none inner
  joinMembers members schema connective indices

/-- Reduce the group that begins last, if there is a group. -/
def step (template : Template) (schema : Schema) : Except CompileError (Option Template) :=
  match lastOpening? template.slots with
  | none => .ok none
  | some (before, after) =>
    match firstClosing? after with
    | none => .error (.structural .unbalancedSeparators none)
    | some (inner, rest) => do
      let (slot, members) ← reduceGroup inner template.members schema
      return some ⟨before ++ slot.toList ++ rest, members⟩

/-- The number of groups that begin in a template. -/
def openings (template : Template) : Nat := template.slots.count .opening

/-- The slots are those before the last beginning, the beginning, and those after it, where no
group begins. -/
theorem lastOpening?_eq_some {slots before after : List Slot}
    (h : lastOpening? slots = some (before, after)) :
    slots = before ++ .opening :: after ∧ after.count .opening = 0 := by
  induction slots generalizing before after with
  | nil => simp [lastOpening?] at h
  | cons slot rest ih =>
    cases hrest : lastOpening? rest with
    | some found =>
      obtain ⟨front, back⟩ := found
      simp only [lastOpening?, hrest, Option.some.injEq, Prod.mk.injEq] at h
      obtain ⟨rfl, rfl⟩ := h
      obtain ⟨hslots, hcount⟩ := ih hrest
      exact ⟨by rw [hslots]; rfl, hcount⟩
    | none =>
      simp only [lastOpening?, hrest] at h
      split at h
      · rename_i hopening
        simp only [Option.some.injEq, Prod.mk.injEq] at h
        obtain ⟨rfl, rfl⟩ := h
        refine ⟨by rw [hopening]; rfl, ?_⟩
        clear ih hopening slot
        induction rest with
        | nil => rfl
        | cons next tail ih =>
          cases htail : lastOpening? tail with
          | some found => simp [lastOpening?, htail] at hrest
          | none =>
            simp only [lastOpening?, htail] at hrest
            split at hrest
            · simp at hrest
            · rename_i hne
              rw [List.count_cons_of_ne hne]
              exact ih htail
      · simp at h

/-- The slots are those before the first end, the end, and those after it. -/
theorem firstClosing?_eq_some {slots before after : List Slot}
    (h : firstClosing? slots = some (before, after)) : slots = before ++ .closing :: after := by
  induction slots generalizing before after with
  | nil => simp [firstClosing?] at h
  | cons slot rest ih =>
    simp only [firstClosing?] at h
    split at h
    · rename_i hclosing
      simp only [Option.some.injEq, Prod.mk.injEq] at h
      obtain ⟨rfl, rfl⟩ := h
      rw [hclosing]
      rfl
    · simp only [Option.map_eq_some_iff, Prod.mk.injEq, Prod.exists] at h
      obtain ⟨front, back, hfound, rfl, rfl⟩ := h
      rw [ih hfound]
      rfl

/-- What takes the place of a group is never the beginning of one. -/
theorem joinMembers_slot {members left : List (Option Member)} {schema : Schema}
    {connective : Option Connective} {indices : List Nat} {slot : Option Slot}
    (h : joinMembers members schema connective indices = .ok (slot, left)) :
    slot.toList.count .opening = 0 := by
  unfold joinMembers at h
  split at h
  case h_3 =>
    cases htake : takeAll members indices with
    | error error => simp [htake, bind, Except.bind] at h
    | ok taken =>
      simp only [htake, bind, Except.bind, pure, Except.pure, Except.ok.injEq,
        Prod.mk.injEq] at h
      simp [← h.1]
  all_goals simp at h
  all_goals simp [← h.1]

/-- Reducing a group puts no beginning of a group in its place. -/
theorem reduceGroup_slot {inner : List Slot} {members left : List (Option Member)}
    {schema : Schema} {slot : Option Slot}
    (h : reduceGroup inner members schema = .ok (slot, left)) :
    slot.toList.count .opening = 0 := by
  cases hcontents : contents none inner with
  | error error => simp [reduceGroup, hcontents, bind, Except.bind] at h
  | ok found =>
    simp only [reduceGroup, hcontents, bind, Except.bind] at h
    exact joinMembers_slot h

/-- Every step takes one group out of the template. -/
theorem openings_step {template next : Template} {schema : Schema}
    (h : template.step schema = .ok (some next)) : next.openings + 1 = template.openings := by
  unfold step at h
  split at h
  · simp at h
  · rename_i before after hlast
    obtain ⟨hslots, hcount⟩ := lastOpening?_eq_some hlast
    split at h
    · simp at h
    · rename_i inner rest hfirst
      have hafter := firstClosing?_eq_some hfirst
      cases hreduce : reduceGroup inner template.members schema with
      | error error => simp [hreduce, bind, Except.bind] at h
      | ok result =>
        obtain ⟨slot, members⟩ := result
        simp only [hreduce, bind, Except.bind, pure, Except.pure, Except.ok.injEq,
          Option.some.injEq] at h
        have hslot := reduceGroup_slot hreduce
        subst h
        rw [hafter, List.count_append, List.count_cons] at hcount
        have hinner : inner.count .opening = 0 := by omega
        have hrest : rest.count .opening = 0 := by omega
        simp [openings, hslots, hslot, hrest, hafter, hinner]

/-- Reduce groups until none is left. -/
def reduce (template : Template) (schema : Schema) : Except CompileError Template :=
  match _h : template.step schema with
  | .error error => .error error
  | .ok none => .ok template
  | .ok (some next) => next.reduce schema
termination_by template.openings
decreasing_by
  have := openings_step _h
  omega

/-- The query that a template without groups holds. -/
def result (template : Template) : Except CompileError DocumentQuery :=
  match template.slots with
  | [] => .ok .matchAll
  | [.member index] => (take template.members index).map fun (member, _) => member.toQuery
  | _ => .error (.emission .malformedExpression)

end Template

/-- The document query of a rule list. -/
def DocumentQuery.ofRules (rules : List Rule) (schema : Schema) :
    Except CompileError DocumentQuery := do
  let template ← Template.ofRules rules schema
  let reduced ← template.reduce schema
  reduced.result

end FilterRules
