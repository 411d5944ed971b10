import BoundedPlanning.Proofs.Loading

namespace BoundedPlanning

/-- The names that the action uses, in the order in which they are looked up. -/
def NamedAction.uses (action : NamedAction) : List (String × NameOwner) :=
  (action.pre ++ action.preNeg ++ action.add ++ action.del).map fun name =>
    (name, .action action.name)

/-- The names that the files use, in the order in which they are looked up. -/
def nameUses (domain : DomainFile) (file : ProblemFile) : List (String × NameOwner) :=
  domain.actions.flatMap NamedAction.uses ++ file.init.map (fun name => (name, .initialState)) ++
    file.goal.pos.map (fun name => (name, .goal)) ++ file.goal.neg.map fun name => (name, .goal)

/-- Facts are declared once, the names that are used are declared, and no fact is to be both true
and false. -/
structure Resolvable (domain : DomainFile) (file : ProblemFile) : Prop where
  facts_nodup : domain.facts.Nodup
  declared : ∀ mention ∈ nameUses domain file, mention.1 ∈ domain.facts
  consistent : ∀ name ∈ file.goal.pos, name ∉ file.goal.neg

/-- The offence that comes first: repeated declarations before undeclared names, and these before
contradictions in the goal. -/
inductive FirstNameOffence (domain : DomainFile) (file : ProblemFile) : LoadError → Prop
  | repeated {before after : List String} {name : String}
      (hfacts : domain.facts = before ++ name :: after) (hbefore : before.Nodup)
      (hname : name ∈ before) :
      FirstNameOffence domain file (.problem (.duplicateFact name))
  | undeclared {before after : List (String × NameOwner)} {name : String} {owner : NameOwner}
      (hnodup : domain.facts.Nodup)
      (huses : nameUses domain file = before ++ (name, owner) :: after)
      (hbefore : ∀ mention ∈ before, mention.1 ∈ domain.facts) (hname : name ∉ domain.facts) :
      FirstNameOffence domain file (.unknownFact name owner)
  | contradiction {id : Nat} (hnodup : domain.facts.Nodup)
      (hdeclared : ∀ mention ∈ nameUses domain file, mention.1 ∈ domain.facts)
      (hleast : IsLeast {id | ∃ name, domain.facts[id]? = some name ∧ name ∈ file.goal.pos ∧
        name ∈ file.goal.neg} id) :
      FirstNameOffence domain file (.problem (.inconsistentGoal id))

section Declarations

/-- The first of the names that was seen before. -/
def firstRepeated? (seen : List String) : List String → Option String
  | [] => none
  | name :: rest => if name ∈ seen then some name else firstRepeated? (seen ++ [name]) rest

theorem firstRepeated?_eq_some_iff {seen names : List String} {name : String}
    (hseen : seen.Nodup) :
    firstRepeated? seen names = some name ↔ ∃ before after, names = before ++ name :: after ∧
      (seen ++ before).Nodup ∧ name ∈ seen ++ before := by
  induction names generalizing seen with
  | nil => simp [firstRepeated?]
  | cons first rest ih =>
      rw [firstRepeated?]
      split
      · rename_i hold
        rw [Option.some.injEq]
        constructor
        · rintro rfl
          exact ⟨[], rest, rfl, by rwa [List.append_nil], by rwa [List.append_nil]⟩
        · rintro ⟨before, after, hnames, hbefore, -⟩
          cases before with
          | nil => exact (List.cons.inj hnames).1
          | cons other before =>
              cases hnames
              exact absurd rfl ((List.nodup_append.mp hbefore).2.2 _ hold _ List.mem_cons_self)
      · rename_i hnew
        have hnodup := hseen.concat hnew
        rw [List.concat_eq_append] at hnodup
        rw [ih hnodup]
        constructor
        · rintro ⟨before, after, rfl, hbefore, hname⟩
          rw [← List.append_cons] at hbefore hname
          exact ⟨first :: before, after, rfl, hbefore, hname⟩
        · rintro ⟨before, after, hnames, hbefore, hname⟩
          cases before with
          | nil =>
              rw [List.append_nil, ← (List.cons.inj hnames).1] at hname
              exact absurd hname hnew
          | cons other before =>
              cases hnames
              rw [List.append_cons] at hbefore hname
              exact ⟨before, after, rfl, hbefore, hname⟩

theorem firstRepeated?_eq_none_iff {seen names : List String} (hseen : seen.Nodup) :
    firstRepeated? seen names = none ↔ (seen ++ names).Nodup := by
  induction names generalizing seen with
  | nil => simpa [firstRepeated?] using hseen
  | cons first rest ih =>
      rw [firstRepeated?]
      split
      · rename_i hold
        refine iff_of_false (by simp) fun hnodup => ?_
        exact (List.nodup_append.mp hnodup).2.2 _ hold _ List.mem_cons_self rfl
      · rename_i hnew
        have hnodup := hseen.concat hnew
        rw [List.concat_eq_append] at hnodup
        rw [ih hnodup, ← List.append_cons]

end Declarations

section Uses

def undeclared? (facts : List String) (mention : String × NameOwner) : Option LoadError :=
  if mention.1 ∈ facts then none else some (.unknownFact mention.1 mention.2)

theorem undeclared?_eq_none_iff {facts : List String} {mention : String × NameOwner} :
    undeclared? facts mention = none ↔ mention.1 ∈ facts := by
  simp [undeclared?]

theorem undeclared?_eq_some_iff {facts : List String} {mention : String × NameOwner}
    {error : LoadError} :
    undeclared? facts mention = some error ↔
      mention.1 ∉ facts ∧ .unknownFact mention.1 mention.2 = error := by
  simp [undeclared?]

theorem findSome?_flatMap {α β γ : Type} {f : α → List β} {g : β → Option γ} {items : List α} :
    (items.flatMap f).findSome? g = items.findSome? fun item => (f item).findSome? g := by
  induction items with
  | nil => rfl
  | cons item rest ih =>
      rw [List.flatMap_cons, List.findSome?_append, ih, List.findSome?_cons]
      cases (f item).findSome? g <;> rfl

end Uses

section Contradictions

theorem findIdx?_eq_some_iff_isLeast {α : Type} {items : List α} {p : α → Bool} {i : Nat} :
    items.findIdx? p = some i ↔ IsLeast {i | ∃ item, items[i]? = some item ∧ p item = true} i := by
  rw [List.findIdx?_eq_some_iff_getElem]
  constructor
  · rintro ⟨hlt, hfound, hbefore⟩
    refine ⟨⟨items[i], List.getElem?_eq_getElem hlt, hfound⟩, ?_⟩
    rintro j ⟨item, hitem, hp⟩
    obtain ⟨hj, rfl⟩ := List.getElem?_eq_some_iff.mp hitem
    exact Nat.le_of_not_lt fun hji => hbefore j hji hp
  · rintro ⟨⟨item, hitem, hp⟩, hleast⟩
    obtain ⟨hlt, rfl⟩ := List.getElem?_eq_some_iff.mp hitem
    refine ⟨hlt, hp, fun j hji hfound => ?_⟩
    have hle : i ≤ j := hleast ⟨_, List.getElem?_eq_getElem (hji.trans hlt), hfound⟩
    omega

/-- The first fact that the goal wants to be both true and false. -/
def NamedGoal.contradiction? (facts : List String) (goal : NamedGoal) : Option Nat :=
  facts.findIdx? fun name => goal.pos.contains name && goal.neg.contains name

theorem NamedGoal.contradiction?_eq_some_iff {facts : List String} {goal : NamedGoal} {id : Nat} :
    goal.contradiction? facts = some id ↔
      IsLeast {id | ∃ name, facts[id]? = some name ∧ name ∈ goal.pos ∧ name ∈ goal.neg} id := by
  simp only [contradiction?, findIdx?_eq_some_iff_isLeast, Bool.and_eq_true, List.contains_iff_mem]

theorem find?_contradiction_of_denotes {facts : List String} {pos neg : List Nat} {goal : NamedGoal}
    (hpos : Denotes facts pos goal.pos) (hneg : Denotes facts neg goal.neg) :
    (Goal.mk pos neg).normalize.pos.find?
        (fun fact => (Goal.mk pos neg).normalize.neg.contains fact) =
      goal.contradiction? facts := by
  ext id
  rw [find?_contradiction_eq_some_iff, NamedGoal.contradiction?_eq_some_iff]
  suffices hset : {fact | fact ∈ pos ∧ fact ∈ neg} =
      {id | ∃ name, facts[id]? = some name ∧ name ∈ goal.pos ∧ name ∈ goal.neg} by
    rw [hset]
  ext id
  constructor
  · rintro ⟨hidPos, hidNeg⟩
    obtain ⟨name, hname, hid⟩ := (hpos.mem_iff id).mp hidPos
    exact ⟨name, hid, hname, (hneg.mem_iff_of_get hid).mp hidNeg⟩
  · rintro ⟨name, hid, hnamePos, hnameNeg⟩
    exact ⟨(hpos.mem_iff_of_get hid).mpr hnamePos, (hneg.mem_iff_of_get hid).mpr hnameNeg⟩

end Contradictions

/-- The offences one after the other, as far as there are any. -/
def nameOffence? (domain : DomainFile) (file : ProblemFile) : Option LoadError :=
  ((firstRepeated? [] domain.facts).map fun name => .problem (.duplicateFact name)).or <|
  ((nameUses domain file).findSome? (undeclared? domain.facts)).or <|
  (file.goal.contradiction? domain.facts).map fun id => .problem (.inconsistentGoal id)

namespace ProblemBuilder

variable {builder next : ProblemBuilder} {facts : List String}

theorem Numbers.error?_addFacts (h : builder.Numbers facts) {names : List String} :
    error? (builder.addFacts names) = (firstRepeated? facts names).map .duplicateFact := by
  induction names generalizing builder facts with
  | nil => rfl
  | cons name rest ih =>
      rw [addFacts_cons, firstRepeated?]
      split
      · rename_i hold
        rw [h.addFact_of_mem hold]
        rfl
      · rename_i hnew
        obtain ⟨next, hadd⟩ := h.exists_addFact hnew
        rw [hadd]
        exact ih (h.addFact hadd)

theorem Numbers.error?_resolveNames (h : builder.Numbers facts) {owner : NameOwner}
    {names : List String} :
    error? (builder.resolveNames owner names) =
      (names.map fun name => (name, owner)).findSome? (undeclared? facts) := by
  rw [resolveNames, error?_mapM, List.findSome?_map]
  congr
  funext name
  rw [Function.comp_apply, undeclared?]
  split
  · rename_i id hid
    exact (if_pos (List.mem_of_getElem? ((h.lookup_iff name id).mp hid))).symm
  · rename_i hnone
    exact (if_neg (h.lookup_eq_none_iff.mp hnone)).symm

theorem Numbers.error?_resolveAction (h : builder.Numbers facts) {action : NamedAction} :
    error? (builder.resolveAction action) = action.uses.findSome? (undeclared? facts) := by
  rw [resolveAction, NamedAction.uses]
  simp only [List.map_append, List.findSome?_append, Option.or_assoc]
  refine error?_bind h.error?_resolveNames fun pre _ => ?_
  refine error?_bind h.error?_resolveNames fun preNeg _ => ?_
  refine error?_bind h.error?_resolveNames fun add _ => ?_
  refine Eq.trans ?_ Option.or_none
  exact error?_bind h.error?_resolveNames fun del _ => rfl

theorem Numbers.error?_resolveActions (h : builder.Numbers facts) {actions : List NamedAction} :
    error? (actions.mapM builder.resolveAction) =
      (actions.flatMap NamedAction.uses).findSome? (undeclared? facts) := by
  rw [error?_mapM, findSome?_flatMap]
  simp only [h.error?_resolveAction]

end ProblemBuilder

theorem Action.StandsFor.lt_length {facts : List String} {action : Action} {named : NamedAction}
    (h : action.StandsFor facts named) : ∀ fact ∈ action.facts, fact < facts.length := by
  intro fact hfact
  simp only [Action.facts, List.mem_append] at hfact
  obtain ((hpre | hpreNeg) | hadd) | hdel := hfact
  · exact h.pre.lt_length fact hpre
  · exact h.preNeg.lt_length fact hpreNeg
  · exact h.add.lt_length fact hadd
  · exact h.del.lt_length fact hdel

theorem lt_length_of_resolveActions {facts : List String} {builder : ProblemBuilder}
    (h : builder.Numbers facts) {named : List NamedAction} {actions : List Action}
    (hresolve : named.mapM builder.resolveAction = .ok actions) :
    ∀ action ∈ actions, ∀ fact ∈ action.facts, fact < facts.length := by
  intro action haction fact hfact
  obtain ⟨given, -, hgiven⟩ := (mem_of_mapM_eq_ok hresolve).mp haction
  rw [← action.sameFacts_normalize.mem_facts_iff] at hfact
  exact (h.standsFor hgiven).lt_length fact hfact

theorem error?_resolve {domain : DomainFile} {file : ProblemFile} :
    error? (resolve domain file) = nameOffence? domain file := by
  rw [resolve_eq_ofParts, nameOffence?, nameUses]
  simp only [List.findSome?_append, Option.or_assoc]
  refine error?_bind ?_ fun builder hfacts => ?_
  · rw [error?_mapError, ProblemBuilder.numbers_empty.error?_addFacts, Option.map_map]
    rfl
  have hnumbers : builder.Numbers domain.facts :=
    ProblemBuilder.numbers_empty.addFacts (except_mapError_eq_ok hfacts)
  refine error?_bind hnumbers.error?_resolveActions fun actions hactions => ?_
  refine error?_bind hnumbers.error?_resolveNames fun init hinit => ?_
  refine error?_bind hnumbers.error?_resolveNames fun pos hpos => ?_
  refine error?_bind hnumbers.error?_resolveNames fun neg hneg => ?_
  have hposDenotes : Denotes domain.facts pos file.goal.pos := hnumbers.denotes hpos
  have hnegDenotes : Denotes domain.facts neg file.goal.neg := hnumbers.denotes hneg
  rw [error?_mapError, error?_ofParts, offence?_of_declared,
    find?_contradiction_of_denotes hposDenotes hnegDenotes, Option.map_map]
  · rfl
  · exact lt_length_of_resolveActions hnumbers hactions
  · exact State.size_ofTrueFacts _ _
  · exact List.forall_mem_append.mpr ⟨hposDenotes.lt_length, hnegDenotes.lt_length⟩

section Offences

variable {domain : DomainFile} {file : ProblemFile} {error : LoadError}

theorem nameOffence?_eq_some_iff :
    nameOffence? domain file = some error ↔ FirstNameOffence domain file error := by
  simp only [nameOffence?, Option.or_eq_some_iff, Option.map_eq_some_iff, Option.map_eq_none_iff,
    firstRepeated?_eq_some_iff List.nodup_nil, firstRepeated?_eq_none_iff List.nodup_nil,
    List.findSome?_eq_some_iff, List.findSome?_eq_none_iff, undeclared?_eq_none_iff,
    undeclared?_eq_some_iff, NamedGoal.contradiction?_eq_some_iff, List.nil_append]
  constructor
  · rintro (⟨name, ⟨before, after, hfacts, hbefore, hname⟩, rfl⟩ | ⟨hnodup, hnames⟩)
    · exact .repeated hfacts hbefore hname
    · obtain ⟨before, ⟨name, owner⟩, after, huses, ⟨hname, rfl⟩, hbefore⟩ |
        ⟨hdeclared, id, hleast, rfl⟩ := hnames
      · exact .undeclared hnodup huses hbefore hname
      · exact .contradiction hnodup hdeclared hleast
  · intro h
    cases h with
    | repeated hfacts hbefore hname => exact Or.inl ⟨_, ⟨_, _, hfacts, hbefore, hname⟩, rfl⟩
    | undeclared hnodup huses hbefore hname =>
        exact Or.inr ⟨hnodup, Or.inl ⟨_, _, _, huses, ⟨hname, rfl⟩, hbefore⟩⟩
    | contradiction hnodup hdeclared hleast =>
        exact Or.inr ⟨hnodup, Or.inr ⟨hdeclared, _, hleast, rfl⟩⟩

theorem mem_facts_of_mem_pos
    (hdeclared : ∀ mention ∈ nameUses domain file, mention.1 ∈ domain.facts) {name : String}
    (hname : name ∈ file.goal.pos) : name ∈ domain.facts := by
  apply hdeclared (name, .goal)
  simp [nameUses, hname]

theorem nameOffence?_eq_none_iff : nameOffence? domain file = none ↔ Resolvable domain file := by
  simp only [nameOffence?, Option.or_eq_none_iff, Option.map_eq_none_iff,
    firstRepeated?_eq_none_iff List.nodup_nil, List.findSome?_eq_none_iff, undeclared?_eq_none_iff,
    NamedGoal.contradiction?, List.findIdx?_eq_none_iff, List.nil_append]
  constructor
  · rintro ⟨hnodup, hdeclared, hnone⟩
    refine ⟨hnodup, hdeclared, fun name hpos hneg => ?_⟩
    simpa [hpos, hneg] using hnone name (mem_facts_of_mem_pos hdeclared hpos)
  · rintro ⟨hnodup, hdeclared, hconsistent⟩
    refine ⟨hnodup, hdeclared, fun name _ => ?_⟩
    simpa using hconsistent name

/-- Files give a problem exactly if their names can be resolved, and otherwise the first offence is
reported, which is never one of numbers.  The problem that they give stands for them: its facts are
those declared, its actions those of the domain file in this order, and the facts of each, of the
initial state and of the goal are those named. -/
theorem resolve_faithful (domain : DomainFile) (file : ProblemFile) :
    ((∃ problem, resolve domain file = .ok problem) ↔ Resolvable domain file) ∧
    (∀ problem, resolve domain file = .ok problem → problem.StandsFor domain file ∧
      ∀ id name, domain.facts[id]? = some name →
        (problem.init.holds id = true ↔ name ∈ file.init)) ∧
    (∀ error, resolve domain file = .error error ↔ FirstNameOffence domain file error) ∧
    (∀ name fact count,
      resolve domain file ≠ .error (.problem (.factOutOfRange name fact count))) ∧
    (∀ context fact count,
      resolve domain file ≠ .error (.problem (.stateOutOfRange context fact count))) ∧
    ∀ count size, resolve domain file ≠ .error (.problem (.initSizeMismatch count size)) := by
  have herror (error : LoadError) :
      resolve domain file = .error error ↔ FirstNameOffence domain file error := by
    rw [← error?_eq_some_iff, error?_resolve, nameOffence?_eq_some_iff]
  refine ⟨?_, fun problem hproblem => ?_, herror, fun name fact count h => ?_,
    fun context fact count h => ?_, fun count size h => ?_⟩
  · rw [← error?_eq_none_iff, error?_resolve, nameOffence?_eq_none_iff]
  · have hstands := standsFor_of_resolve hproblem
    refine ⟨hstands, fun id name hname => ?_⟩
    rw [← State.mem_trueFacts]
    exact hstands.init.mem_iff_of_get hname
  · cases (herror _).mp h
  · cases (herror _).mp h
  · cases (herror _).mp h

def blinker : DomainFile :=
  ⟨["lit"], [⟨"flip", [], ["lit"], ["lit"], []⟩, ⟨"flip", ["lit"], [], [], ["lit"]⟩]⟩

def brokenBlinker : DomainFile :=
  ⟨["lit"], [⟨"flip", ["lit"], [], ["dim"], ["dark"]⟩]⟩

theorem resolve_faithful_blinker :
    (∃ problem, resolve blinker ⟨["lit"], ⟨[], ["lit"]⟩⟩ = .ok problem ∧
      problem.StandsFor blinker ⟨["lit"], ⟨[], ["lit"]⟩⟩) ∧
    resolve blinker ⟨["lit"], ⟨["lit"], ["lit"]⟩⟩ = .error (.problem (.inconsistentGoal 0)) ∧
    resolve brokenBlinker ⟨["red"], ⟨["lit"], ["lit"]⟩⟩ =
      .error (.unknownFact "dim" (.action "flip")) := by
  refine ⟨?_, ?_, ?_⟩
  · obtain ⟨hresolves, hstands, -⟩ := resolve_faithful blinker ⟨["lit"], ⟨[], ["lit"]⟩⟩
    obtain ⟨problem, hproblem⟩ := hresolves.mpr ⟨by decide, by decide, by decide⟩
    exact ⟨problem, hproblem, (hstands problem hproblem).1⟩
  · refine ((resolve_faithful _ _).2.2.1 _).mpr (.contradiction (by decide) (by decide) ?_)
    exact ⟨⟨"lit", rfl, by decide, by decide⟩, fun id _ => Nat.zero_le id⟩
  · refine ((resolve_faithful _ _).2.2.1 _).mpr ?_
    exact @FirstNameOffence.undeclared _ _ [("lit", .action "flip")] _ _ _ (by decide) rfl
      (by decide) (by decide)

end Offences

end BoundedPlanning
