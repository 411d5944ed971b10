import BoundedPlanning.Proofs.Except
import BoundedPlanning.Proofs.NamedProblems
import BoundedPlanning.Proofs.ProblemParts

namespace BoundedPlanning

theorem getElem?_concat_eq_some_iff {α : Type} {items : List α} {last item : α} {i : Nat} :
    (items ++ [last])[i]? = some item ↔ items[i]? = some item ∨ i = items.length ∧ last = item := by
  rw [List.getElem?_append]
  split
  · rename_i hlt
    simp [Nat.ne_of_lt hlt]
  · rename_i hle
    rw [List.getElem?_eq_none (Nat.le_of_not_lt hle), List.getElem?_singleton]
    split <;> simp <;> omega

theorem Denotes.ascending {facts names : List String} {ids : List Nat}
    (h : Denotes facts ids names) : Denotes facts (ascending ids) names :=
  ⟨fun id => (mem_ascending id ids).trans (h.mem_iff id), h.declared⟩

namespace ProblemBuilder

variable {builder next : ProblemBuilder} {facts : List String}

/-- The facts declared so far are these, and the table has the place of each. -/
structure Numbers (builder : ProblemBuilder) (facts : List String) : Prop where
  facts_eq : builder.facts.toList = facts
  nodup : facts.Nodup
  lookup_iff : ∀ name id, builder.lookup name = some id ↔ facts[id]? = some name

theorem numbers_empty : empty.Numbers [] where
  facts_eq := rfl
  nodup := List.nodup_nil
  lookup_iff := by simp [lookup, empty]

theorem Numbers.lookup_eq_none_iff (h : builder.Numbers facts) {name : String} :
    builder.lookup name = none ↔ name ∉ facts := by
  rw [Option.eq_none_iff_forall_ne_some, List.mem_iff_getElem?, not_exists]
  exact forall_congr' fun id => not_congr (h.lookup_iff name id)

theorem Numbers.size_facts (h : builder.Numbers facts) : builder.facts.size = facts.length := by
  rw [← h.facts_eq, Array.length_toList]

theorem Numbers.contains_iff (h : builder.Numbers facts) {name : String} :
    builder.byName.contains name = true ↔ name ∈ facts := by
  rw [Std.HashMap.contains_eq_isSome_getElem?, Option.isSome_iff_exists, List.mem_iff_getElem?]
  exact exists_congr fun id => h.lookup_iff name id

theorem Numbers.addFact_of_mem (h : builder.Numbers facts) {name : String} (hname : name ∈ facts) :
    builder.addFact name = .error (.duplicateFact name) :=
  if_pos (h.contains_iff.mpr hname)

theorem Numbers.exists_addFact (h : builder.Numbers facts) {name : String} (hname : name ∉ facts) :
    ∃ next, builder.addFact name = .ok (facts.length, next) := by
  rw [ProblemBuilder.addFact, if_neg (mt h.contains_iff.mp hname), h.size_facts]
  exact ⟨_, rfl⟩

theorem Numbers.addFact (h : builder.Numbers facts) {name : String} {id : Nat}
    (hadd : builder.addFact name = .ok (id, next)) : next.Numbers (facts ++ [name]) := by
  rw [ProblemBuilder.addFact] at hadd
  split at hadd
  · cases hadd
  · rename_i hnew
    cases hadd
    have hfree : name ∉ facts := mt h.contains_iff.mpr hnew
    refine ⟨?_, ?_, fun other place => ?_⟩
    · rw [Array.toList_push, h.facts_eq]
    · rw [← List.concat_eq_append]
      exact h.nodup.concat hfree
    · rw [getElem?_concat_eq_some_iff, lookup, Std.HashMap.getElem?_insert]
      by_cases hother : name = other
      · subst hother
        have hnone : facts[place]? ≠ some name := fun hplace => hfree (List.mem_of_getElem? hplace)
        simp [hnone, h.size_facts, eq_comm]
      · simp only [beq_iff_eq, hother, if_false, and_false, or_false]
        exact h.lookup_iff other place

theorem addFacts_cons {name : String} {rest : List String} :
    builder.addFacts (name :: rest) =
      ((builder.addFact name).map Prod.snd >>= fun next => next.addFacts rest) := by
  rw [ProblemBuilder.addFacts, List.foldlM_cons]
  rfl

theorem exists_of_addFacts_cons {name : String} {rest : List String}
    (hadd : builder.addFacts (name :: rest) = .ok next) :
    ∃ id middle, builder.addFact name = .ok (id, middle) ∧ middle.addFacts rest = .ok next := by
  rw [addFacts_cons] at hadd
  obtain ⟨middle, hfirst, hrest⟩ := except_bind_eq_ok hadd
  cases hname : builder.addFact name with
  | error error =>
      rw [hname] at hfirst
      cases hfirst
  | ok added =>
      rw [hname] at hfirst
      cases hfirst
      exact ⟨added.1, added.2, rfl, hrest⟩

theorem Numbers.addFacts (h : builder.Numbers facts) {names : List String}
    (hadd : builder.addFacts names = .ok next) : next.Numbers (facts ++ names) := by
  induction names generalizing builder facts with
  | nil =>
      cases hadd
      rwa [List.append_nil]
  | cons name rest ih =>
      obtain ⟨id, middle, hfirst, hrest⟩ := exists_of_addFacts_cons hadd
      rw [List.append_cons]
      exact ih (h.addFact hfirst) hrest

theorem parts_of_addFact {name : String} {id : Nat}
    (hadd : builder.addFact name = .ok (id, next)) :
    next.actions = builder.actions ∧ next.initTrue = builder.initTrue ∧
      next.goalTrue = builder.goalTrue ∧ next.goalFalse = builder.goalFalse := by
  rw [ProblemBuilder.addFact] at hadd
  split at hadd
  · cases hadd
  · cases hadd
    exact ⟨rfl, rfl, rfl, rfl⟩

theorem parts_of_addFacts {names : List String} (hadd : builder.addFacts names = .ok next) :
    next.actions = builder.actions ∧ next.initTrue = builder.initTrue ∧
      next.goalTrue = builder.goalTrue ∧ next.goalFalse = builder.goalFalse := by
  induction names generalizing builder with
  | nil =>
      cases hadd
      exact ⟨rfl, rfl, rfl, rfl⟩
  | cons name rest ih =>
      obtain ⟨id, middle, hfirst, hrest⟩ := exists_of_addFacts_cons hadd
      obtain ⟨hactions, hinit, hpos, hneg⟩ := parts_of_addFact hfirst
      rw [← hactions, ← hinit, ← hpos, ← hneg]
      exact ih hrest

theorem Numbers.denotes (h : builder.Numbers facts) {owner : NameOwner} {names : List String}
    {ids : List Nat} (hresolve : builder.resolveNames owner names = .ok ids) :
    Denotes facts ids names := by
  constructor
  · intro id
    rw [mem_of_mapM_eq_ok hresolve]
    refine exists_congr fun name => and_congr_right fun _ => ?_
    rw [← h.lookup_iff]
    cases builder.lookup name <;> simp
  · intro name hname
    obtain ⟨id, hid⟩ := exists_of_mapM_eq_ok hresolve hname
    refine ⟨id, (h.lookup_iff name id).mp ?_⟩
    cases hlookup : builder.lookup name with
    | none =>
        rw [hlookup] at hid
        cases hid
    | some found =>
        rw [hlookup] at hid
        cases hid
        rfl

theorem Numbers.standsFor (h : builder.Numbers facts) {named : NamedAction} {action : Action}
    (hresolve : builder.resolveAction named = .ok action) :
    action.normalize.StandsFor facts named := by
  obtain ⟨pre, hpre, hresolve⟩ := except_bind_eq_ok hresolve
  obtain ⟨preNeg, hpreNeg, hresolve⟩ := except_bind_eq_ok hresolve
  obtain ⟨add, hadd, hresolve⟩ := except_bind_eq_ok hresolve
  obtain ⟨del, hdel, hresolve⟩ := except_bind_eq_ok hresolve
  cases hresolve
  exact ⟨rfl, (h.denotes hpre).ascending, (h.denotes hpreNeg).ascending, (h.denotes hadd).ascending,
    (h.denotes hdel).ascending⟩

end ProblemBuilder

namespace ProblemBuilder

/-- Items that are added to one part of a builder end up there in order. -/
theorem foldl_eq_update {α : Type} {add : ProblemBuilder → α → ProblemBuilder}
    {part : ProblemBuilder → Array α} {update : ProblemBuilder → Array α → ProblemBuilder}
    (hadd : ∀ builder item, add builder item = update builder ((part builder).push item))
    (hpart : ∀ builder items, part (update builder items) = items)
    (hupdate : ∀ builder items later, update (update builder items) later = update builder later)
    (hself : ∀ builder, update builder (part builder) = builder) (items : List α)
    (builder : ProblemBuilder) :
    items.foldl add builder = update builder (part builder ++ items.toArray) := by
  induction items generalizing builder with
  | nil => simp [hself]
  | cons item rest ih => simp [ih, hadd, hpart, hupdate]

theorem foldl_addAction (actions : List Action) (builder : ProblemBuilder) :
    actions.foldl (fun builder action => (builder.addAction action).2) builder =
      { builder with actions := builder.actions ++ actions.toArray } :=
  @foldl_eq_update _ _ ProblemBuilder.actions
    (fun builder items => { builder with actions := items }) (fun _ _ => rfl) (fun _ _ => rfl)
    (fun _ _ _ => rfl) (fun _ => rfl) actions builder

theorem foldl_addInit (ids : List Nat) (builder : ProblemBuilder) :
    ids.foldl addInit builder = { builder with initTrue := builder.initTrue ++ ids.toArray } :=
  @foldl_eq_update _ _ initTrue (fun builder items => { builder with initTrue := items })
    (fun _ _ => rfl) (fun _ _ => rfl) (fun _ _ _ => rfl) (fun _ => rfl) ids builder

theorem foldl_addGoalTrue (ids : List Nat) (builder : ProblemBuilder) :
    ids.foldl addGoalTrue builder = { builder with goalTrue := builder.goalTrue ++ ids.toArray } :=
  @foldl_eq_update _ _ goalTrue (fun builder items => { builder with goalTrue := items })
    (fun _ _ => rfl) (fun _ _ => rfl) (fun _ _ _ => rfl) (fun _ => rfl) ids builder

theorem foldl_addGoalFalse (ids : List Nat) (builder : ProblemBuilder) :
    ids.foldl addGoalFalse builder =
      { builder with goalFalse := builder.goalFalse ++ ids.toArray } :=
  @foldl_eq_update _ _ goalFalse (fun builder items => { builder with goalFalse := items })
    (fun _ _ => rfl) (fun _ _ => rfl) (fun _ _ _ => rfl) (fun _ => rfl) ids builder

theorem build_of_declared {builder : ProblemBuilder}
    (h : ∀ fact ∈ builder.initTrue.toList, fact < builder.facts.size) :
    builder.build = Problem.ofParts builder.facts.toList builder.actions.toList
      (.ofTrueFacts builder.facts.size builder.initTrue.toList)
      ⟨builder.goalTrue.toList, builder.goalFalse.toList⟩ := by
  have hnone :
      builder.initTrue.toList.find? (fun fact => decide (builder.facts.size ≤ fact)) = none := by
    simpa only [List.find?_eq_none, decide_eq_true_eq, Nat.not_le] using h
  rw [build, hnone]

/-- Parts are never refused because of undeclared initial facts: a state has none. -/
theorem ofParts_ne_undeclaredInit {facts : List String} {actions : List Action} {init : State}
    {goal : Goal} {fact count : Nat} :
    Problem.ofParts facts actions init goal ≠
      .error (.stateOutOfRange .initialState fact count) := by
  intro h
  cases ofParts_eq_error_iff.mp h

theorem build_eq_undeclaredInit_iff_find? {builder : ProblemBuilder} {fact count : Nat} :
    builder.build = .error (.stateOutOfRange .initialState fact count) ↔
      count = builder.facts.size ∧
        builder.initTrue.toList.find? (fun fact => decide (count ≤ fact)) = some fact := by
  rw [build]
  split
  · rename_i first hfirst
    simp only [Except.error.injEq, ProblemError.stateOutOfRange.injEq, true_and]
    constructor
    · rintro ⟨rfl, rfl⟩
      exact ⟨rfl, hfirst⟩
    · rintro ⟨rfl, hfact⟩
      exact ⟨Option.some.inj (hfirst.symm.trans hfact), rfl⟩
  · rename_i hnone
    refine iff_of_false ofParts_ne_undeclaredInit ?_
    rintro ⟨rfl, hfact⟩
    rw [hnone] at hfact
    cases hfact

/-- The error names the first undeclared fact in the order of the calls. -/
theorem build_eq_undeclaredInit_iff {builder : ProblemBuilder} {fact count : Nat} :
    builder.build = .error (.stateOutOfRange .initialState fact count) ↔
      count = builder.facts.size ∧ count ≤ fact ∧ ∃ before after,
        builder.initTrue.toList = before ++ fact :: after ∧ ∀ other ∈ before, other < count := by
  rw [build_eq_undeclaredInit_iff_find?, List.find?_eq_some_iff_append]
  simp only [decide_eq_true_eq, Bool.not_eq_true', decide_eq_false_iff_not, Nat.not_le]

theorem exists_build_eq_undeclaredInit_iff {builder : ProblemBuilder} :
    (∃ fact count, builder.build = .error (.stateOutOfRange .initialState fact count)) ↔
      ∃ fact ∈ builder.initTrue.toList, builder.facts.size ≤ fact := by
  simp only [build_eq_undeclaredInit_iff_find?, exists_eq_left,
    ← Option.isSome_iff_exists, List.find?_isSome, decide_eq_true_eq]

/-- Given facts and what was resolved with them, the builder makes the problem of these parts. -/
theorem build_of_resolved {builder : ProblemBuilder} {facts : List String}
    (hadd : empty.addFacts facts = .ok builder) {actions : List Action} {init pos neg : List Nat}
    (hinit : ∀ fact ∈ init, fact < facts.length) :
    build { builder with
        actions := builder.actions ++ actions.toArray
        initTrue := builder.initTrue ++ init.toArray
        goalTrue := builder.goalTrue ++ pos.toArray
        goalFalse := builder.goalFalse ++ neg.toArray } =
      Problem.ofParts facts actions (.ofTrueFacts facts.length init) ⟨pos, neg⟩ := by
  have hnumbers : builder.Numbers facts := numbers_empty.addFacts hadd
  obtain ⟨hnoActions, hnoInit, hnoTrue, hnoFalse⟩ := parts_of_addFacts hadd
  rw [build_of_declared]
  · simp only [hnoActions, hnoInit, hnoTrue, hnoFalse, hnumbers.facts_eq, hnumbers.size_facts,
      empty, Array.toList_append, List.nil_append]
  · simpa only [hnoInit, hnumbers.size_facts, empty, Array.toList_append, List.nil_append]
      using hinit

end ProblemBuilder

theorem Denotes.lt_length {facts names : List String} {ids : List Nat}
    (h : Denotes facts ids names) : ∀ id ∈ ids, id < facts.length := by
  intro id hid
  obtain ⟨name, -, hname⟩ := (h.mem_iff id).mp hid
  exact (List.getElem?_eq_some_iff.mp hname).1

/-- Loading resolves the names in their order and makes the problem of what they stand for. -/
theorem resolve_eq_ofParts {domain : DomainFile} {file : ProblemFile} :
    resolve domain file = (do
      let builder ← (ProblemBuilder.empty.addFacts domain.facts).mapError .problem
      let actions ← domain.actions.mapM builder.resolveAction
      let init ← builder.resolveNames .initialState file.init
      let pos ← builder.resolveNames .goal file.goal.pos
      let neg ← builder.resolveNames .goal file.goal.neg
      (Problem.ofParts domain.facts actions (.ofTrueFacts domain.facts.length init)
        ⟨pos, neg⟩).mapError .problem) := by
  apply except_bind_congr
  intro builder hfacts
  have hadd := except_mapError_eq_ok hfacts
  have hnumbers : builder.Numbers domain.facts := ProblemBuilder.numbers_empty.addFacts hadd
  apply except_bind_congr
  intro actions _
  -- between the look-ups the builder gets more parts, but its table stays as it is
  rw [ProblemBuilder.foldl_addAction]
  apply except_bind_congr
  intro init hinit
  have hdenotes : Denotes domain.facts init file.init := hnumbers.denotes hinit
  rw [ProblemBuilder.foldl_addInit]
  apply except_bind_congr
  intro pos _
  rw [ProblemBuilder.foldl_addGoalTrue]
  apply except_bind_congr
  intro neg _
  rw [ProblemBuilder.foldl_addGoalFalse]
  exact congrArg (Except.mapError LoadError.problem)
    (ProblemBuilder.build_of_resolved hadd hdenotes.lt_length)

/-- The problem made from two files is the problem that they describe. -/
theorem standsFor_of_resolve {domain : DomainFile} {file : ProblemFile} {problem : Problem}
    (h : resolve domain file = .ok problem) : problem.StandsFor domain file := by
  rw [resolve_eq_ofParts] at h
  obtain ⟨builder, hfacts, h⟩ := except_bind_eq_ok h
  obtain ⟨actions, hactions, h⟩ := except_bind_eq_ok h
  obtain ⟨init, hinit, h⟩ := except_bind_eq_ok h
  obtain ⟨pos, hpos, h⟩ := except_bind_eq_ok h
  obtain ⟨neg, hneg, h⟩ := except_bind_eq_ok h
  obtain ⟨hproblemFacts, hproblemActions, hproblemInit, hproblemGoal⟩ :=
    Problem.of_ofParts_eq_ok (except_mapError_eq_ok h)
  have hnumbers : builder.Numbers domain.facts :=
    ProblemBuilder.numbers_empty.addFacts (except_mapError_eq_ok hfacts)
  refine ⟨hproblemFacts, hnumbers.nodup, ?_, ?_, ?_, ?_⟩
  · rw [hproblemActions, List.forall₂_map_left_iff]
    exact ((except_mapM_eq_ok_iff.mp hactions).imp fun named action => hnumbers.standsFor).flip
  · have hdenotes : Denotes domain.facts init file.init := hnumbers.denotes hinit
    refine ⟨fun id => ?_, hdenotes.declared⟩
    rw [State.mem_trueFacts, hproblemInit, State.holds_ofTrueFacts, decide_eq_true_iff,
      and_iff_left_of_imp (hdenotes.lt_length id), hdenotes.mem_iff]
  · rw [hproblemGoal]
    exact (hnumbers.denotes hpos).ascending
  · rw [hproblemGoal]
    exact (hnumbers.denotes hneg).ascending

theorem Files.load_eq_ok_iff {α : Type} {files : Files} {content path : String}
    {parse : String → Option α} {value : α} :
    files.load content path parse = .ok value ↔
      ∃ text, (files path).bind String.fromUTF8? = some text ∧ parse text = some value := by
  unfold load
  cases (files path).bind String.fromUTF8? with
  | none => simp
  | some text => cases hvalue : parse text <;> simp [hvalue]

theorem loadProblem_eq_ok_iff {files : Files} {domainPath problemPath : String}
    {problem : Problem} :
    loadProblem files domainPath problemPath = .ok problem ↔
      ∃ domain file, DomainFile.load files domainPath = .ok domain ∧
        ProblemFile.load files problemPath = .ok file ∧ resolve domain file = .ok problem := by
  constructor
  · intro h
    obtain ⟨domain, hdomain, h⟩ := except_bind_eq_ok h
    obtain ⟨file, hfile, h⟩ := except_bind_eq_ok h
    exact ⟨domain, file, except_mapError_eq_ok hdomain, except_mapError_eq_ok hfile, h⟩
  · rintro ⟨domain, file, hdomain, hfile, h⟩
    rw [loadProblem, hdomain, hfile]
    exact h

end BoundedPlanning
