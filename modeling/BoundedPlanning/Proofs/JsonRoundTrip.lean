import BoundedPlanning.Json.Reader
import BoundedPlanning.Proofs.JsonTokens

namespace BoundedPlanning

namespace JsonValue

/-- The value has only strings with a text and no numbers but natural ones. -/
inductive Plain : JsonValue → Prop
  | null : Plain .null
  | bool (value : Bool) : Plain (.bool value)
  | natural (value : Nat) : Plain (.natural value)
  | string (text : String) : Plain (.string (some text))
  | array {items : List JsonValue} (hitems : ∀ item ∈ items, Plain item) : Plain (.array items)
  | object {entries : List (Option String × JsonValue)}
      (hkeys : ∀ entry ∈ entries, entry.1.isSome = true)
      (hvalues : ∀ entry ∈ entries, Plain entry.2) : Plain (.object entries)

mutual

def tokens : JsonValue → List JsonToken
  | .null => [.null]
  | .bool value => [.bool value]
  | .natural value => [.natural value]
  | .otherNumber text => [.otherNumber text]
  | .string text? => [.string text?]
  | .array [] => [.openArray, .closeArray]
  | .array (first :: rest) => .openArray :: tokens first ++ itemTokens rest ++ [.closeArray]
  | .object [] => [.openObject, .closeObject]
  | .object ((key, value) :: rest) =>
    .openObject :: .string key :: .colon :: tokens value ++ entryTokens rest ++ [.closeObject]

def itemTokens : List JsonValue → List JsonToken
  | [] => []
  | item :: rest => .comma :: tokens item ++ itemTokens rest

def entryTokens : List (Option String × JsonValue) → List JsonToken
  | [] => []
  | (key, value) :: rest => .comma :: .string key :: .colon :: tokens value ++ entryTokens rest

end

open JsonToken

theorem follows_compactItems {items : List JsonValue} {rest : List Char} {more : List JsonToken}
    (hitems : ∀ item ∈ items, Spells item.compactChars item.tokens) (hrest : Follows rest more) :
    Follows (compactItems items ++ rest) (itemTokens items ++ more) := by
  induction items with
  | nil => exact hrest
  | cons item items ih =>
      rw [List.forall_mem_cons] at hitems
      have hscan := hitems.1 (ih hitems.2)
      simp only [compactItems, itemTokens, List.cons_append, List.append_assoc]
      exact .sign rfl hscan

theorem follows_compactEntries {entries : List (Option String × JsonValue)} {rest : List Char}
    {more : List JsonToken} (hkeys : ∀ entry ∈ entries, entry.1.isSome = true)
    (hvalues : ∀ entry ∈ entries, Spells entry.2.compactChars entry.2.tokens)
    (hrest : Follows rest more) :
    Follows (compactEntries entries ++ rest) (entryTokens entries ++ more) := by
  induction entries with
  | nil => exact hrest
  | cons entry entries ih =>
      rw [List.forall_mem_cons] at hkeys hvalues
      obtain ⟨key?, value⟩ := entry
      obtain ⟨key, rfl⟩ := Option.isSome_iff_exists.mp hkeys.1
      have hscan := hvalues.1 (ih hkeys.2 hvalues.2)
      simp only [compactEntries, entryTokens, List.cons_append, List.append_assoc]
      exact .sign rfl (scan_quoted key (scan_sign rfl hscan))

theorem spells_compactChars {value : JsonValue} (h : value.Plain) :
    Spells value.compactChars value.tokens := by
  induction h with
  | null => exact spells_word (by simp [compactChars]) rfl
  | bool value => cases value <;> exact spells_word (by simp [compactChars]) rfl
  | natural value =>
      rw [compactChars, toList_toString]
      exact spells_toDigits value
  | string text =>
      intro rest more hrest
      exact scan_quoted text hrest.scan_eq
  | @array items _ ih =>
      intro rest more hrest
      cases items with
      | nil => exact scan_sign rfl (scan_sign rfl hrest.scan_eq)
      | cons first items =>
          rw [List.forall_mem_cons] at ih
          have hclose := Follows.sign (c := ']') rfl hrest.scan_eq
          have hscan := ih.1 (follows_compactItems ih.2 hclose)
          simp only [compactChars, tokens, List.cons_append, List.append_assoc, List.nil_append]
          exact scan_sign rfl hscan
  | @object entries hkeys _ ih =>
      intro rest more hrest
      cases entries with
      | nil => exact scan_sign rfl (scan_sign rfl hrest.scan_eq)
      | cons first entries =>
          rw [List.forall_mem_cons] at hkeys ih
          obtain ⟨key?, value⟩ := first
          obtain ⟨key, rfl⟩ := Option.isSome_iff_exists.mp hkeys.1
          have hclose := Follows.sign (c := '\x7d') rfl hrest.scan_eq
          have hscan := ih.1 (follows_compactEntries hkeys.2 ih.2 hclose)
          simp only [compactChars, tokens, List.cons_append, List.append_assoc, List.nil_append]
          exact scan_sign rfl (scan_quoted key (scan_sign rfl hscan))

theorem scan_newLine {rest : List Char} {more : List JsonToken} (level : Nat)
    (h : scan rest = some more) : Follows (newLine level ++ rest) more := by
  apply follows_lineEnd
  induction 2 * level with
  | zero => exact h
  | succ count ih => exact (scan_blank rfl).trans ih

theorem scan_colonBlank {rest : List Char} {more : List JsonToken} (h : scan rest = some more) :
    scan (": ".toList ++ rest) = some (.colon :: more) :=
  scan_sign rfl ((scan_blank rfl).trans h)

theorem follows_prettyItems {items : List JsonValue} {rest : List Char} {more : List JsonToken}
    {level : Nat} (hitems : ∀ item ∈ items, Spells (item.prettyChars level) item.tokens)
    (hrest : Follows rest more) :
    Follows (prettyItems level items ++ rest) (itemTokens items ++ more) := by
  induction items with
  | nil => exact hrest
  | cons item items ih =>
      rw [List.forall_mem_cons] at hitems
      have hscan := hitems.1 (ih hitems.2)
      simp only [prettyItems, itemTokens, List.cons_append, List.append_assoc]
      exact .sign rfl (scan_newLine level hscan).scan_eq

theorem follows_prettyEntries {entries : List (Option String × JsonValue)} {rest : List Char}
    {more : List JsonToken} {level : Nat} (hkeys : ∀ entry ∈ entries, entry.1.isSome = true)
    (hvalues : ∀ entry ∈ entries, Spells (entry.2.prettyChars level) entry.2.tokens)
    (hrest : Follows rest more) :
    Follows (prettyEntries level entries ++ rest) (entryTokens entries ++ more) := by
  induction entries with
  | nil => exact hrest
  | cons entry entries ih =>
      rw [List.forall_mem_cons] at hkeys hvalues
      obtain ⟨key?, value⟩ := entry
      obtain ⟨key, rfl⟩ := Option.isSome_iff_exists.mp hkeys.1
      have hscan := hvalues.1 (ih hkeys.2 hvalues.2)
      simp only [prettyEntries, entryTokens, List.cons_append, List.append_assoc]
      exact .sign rfl (scan_newLine level (scan_quoted key (scan_colonBlank hscan))).scan_eq

theorem spells_prettyChars {value : JsonValue} (h : value.Plain) (level : Nat) :
    Spells (value.prettyChars level) value.tokens := by
  induction h generalizing level with
  | null => exact spells_compactChars .null
  | bool value => exact spells_compactChars (.bool value)
  | natural value => exact spells_compactChars (.natural value)
  | string text => exact spells_compactChars (.string text)
  | @array items _ ih =>
      intro rest more hrest
      cases items with
      | nil => exact scan_sign rfl (scan_sign rfl hrest.scan_eq)
      | cons first items =>
          rw [List.forall_mem_cons] at ih
          have hclose := scan_newLine level (scan_sign (c := ']') rfl hrest.scan_eq)
          have hscan := ih.1 (level + 1)
            (follows_prettyItems (fun item hitem => ih.2 item hitem (level + 1)) hclose)
          simp only [prettyChars, tokens, List.cons_append, List.append_assoc, List.nil_append]
          exact scan_sign rfl (scan_newLine (level + 1) hscan).scan_eq
  | @object entries hkeys _ ih =>
      intro rest more hrest
      cases entries with
      | nil => exact scan_sign rfl (scan_sign rfl hrest.scan_eq)
      | cons first entries =>
          rw [List.forall_mem_cons] at hkeys ih
          obtain ⟨key?, value⟩ := first
          obtain ⟨key, rfl⟩ := Option.isSome_iff_exists.mp hkeys.1
          have hclose := scan_newLine level (scan_sign (c := '\x7d') rfl hrest.scan_eq)
          have hscan := ih.1 (level + 1)
            (follows_prettyEntries hkeys.2 (fun entry hentry => ih.2 entry hentry (level + 1)) hclose)
          simp only [prettyChars, tokens, List.cons_append, List.append_assoc, List.nil_append]
          exact scan_sign rfl
            (scan_newLine (level + 1) (scan_quoted key (scan_colonBlank hscan))).scan_eq

/-! ### The machine -/

/-- The tokens of the value lead from where a value is expected to where it is done. -/
def IsRead (value : JsonValue) : Prop :=
  ∀ (frames : List JsonFrame) (more : List JsonToken),
    (value.tokens ++ more).foldlM JsonMachine.step ⟨frames, .value⟩ =
      more.foldlM JsonMachine.step ⟨frames, .separator value⟩

theorem exists_tokens_eq_cons (value : JsonValue) :
    ∃ token rest, value.tokens = token :: rest ∧ token ≠ .closeArray := by
  unfold tokens
  split
  all_goals exact ⟨_, _, rfl, by simp⟩

/-- A value may also be the first item of an array, since its tokens do not close one. -/
theorem IsRead.firstItem {value : JsonValue} (h : value.IsRead) (frames : List JsonFrame)
    (more : List JsonToken) :
    (value.tokens ++ more).foldlM JsonMachine.step ⟨frames, .firstItem⟩ =
      more.foldlM JsonMachine.step ⟨frames, .separator value⟩ := by
  rw [← h frames more]
  obtain ⟨token, rest, htokens, htoken⟩ := value.exists_tokens_eq_cons
  have hstep : JsonMachine.step ⟨frames, .firstItem⟩ token =
      JsonMachine.step ⟨frames, .value⟩ token := by
    cases token with
    | closeArray => exact absurd rfl htoken
    | _ => rfl
  rw [htokens, List.cons_append, List.foldlM_cons, List.foldlM_cons, hstep]

theorem foldlM_itemTokens {items : List JsonValue} (hitems : ∀ item ∈ items, item.IsRead)
    (frames : List JsonFrame) (before : List JsonValue) (done : JsonValue)
    (more : List JsonToken) :
    (itemTokens items ++ .closeArray :: more).foldlM JsonMachine.step
        ⟨.array before :: frames, .separator done⟩ =
      more.foldlM JsonMachine.step
        ⟨frames, .separator (.array (before.reverse ++ done :: items))⟩ := by
  induction items generalizing before done with
  | nil =>
      rw [← List.reverse_cons]
      rfl
  | cons item items ih =>
      rw [List.forall_mem_cons] at hitems
      have hrest := ih hitems.2 (done :: before) item
      rw [List.reverse_cons, List.append_assoc, List.singleton_append] at hrest
      rw [← hrest, ← hitems.1 (.array (done :: before) :: frames), ← List.append_assoc]
      rfl

theorem foldlM_entryTokens {entries : List (Option String × JsonValue)}
    (hvalues : ∀ entry ∈ entries, entry.2.IsRead) (frames : List JsonFrame)
    (before : List (Option String × JsonValue)) (key : Option String) (done : JsonValue)
    (more : List JsonToken) :
    (entryTokens entries ++ .closeObject :: more).foldlM JsonMachine.step
        ⟨.entry key before :: frames, .separator done⟩ =
      more.foldlM JsonMachine.step
        ⟨frames, .separator (.object (before.reverse ++ (key, done) :: entries))⟩ := by
  induction entries generalizing before key done with
  | nil =>
      rw [← List.reverse_cons]
      rfl
  | cons entry entries ih =>
      rw [List.forall_mem_cons] at hvalues
      obtain ⟨next, value⟩ := entry
      have hrest := ih hvalues.2 ((key, done) :: before) next value
      rw [List.reverse_cons, List.append_assoc, List.singleton_append] at hrest
      rw [← hrest, ← hvalues.1 (.entry next ((key, done) :: before) :: frames),
        ← List.append_assoc]
      rfl

theorem isRead {value : JsonValue} (h : value.Plain) : value.IsRead := by
  induction h with
  | null | bool | natural | string => exact fun frames more => rfl
  | @array items _ ih =>
      intro frames more
      cases items with
      | nil => rfl
      | cons first items =>
          rw [List.forall_mem_cons] at ih
          have hitems := foldlM_itemTokens ih.2 frames [] first more
          rw [← ih.1.firstItem] at hitems
          simp only [tokens, List.cons_append, List.append_assoc, List.nil_append] at hitems ⊢
          exact hitems
  | @object entries _ _ ih =>
      intro frames more
      cases entries with
      | nil => rfl
      | cons first entries =>
          rw [List.forall_mem_cons] at ih
          obtain ⟨key, value⟩ := first
          have hentries := foldlM_entryTokens ih.2 frames [] key value more
          rw [← ih.1] at hentries
          simp only [tokens, List.cons_append, List.append_assoc, List.nil_append] at hentries ⊢
          exact hentries

theorem ofTokens?_tokens {value : JsonValue} (h : value.Plain) :
    ofTokens? value.tokens = some value := by
  have hread := isRead h [] []
  rw [List.append_nil] at hread
  rw [ofTokens?, JsonMachine.start, hread]
  rfl

theorem ofText?_compact {value : JsonValue} (h : value.Plain) :
    ofText? value.compact = some value := by
  have hscan := spells_compactChars h follows_nil
  rw [List.append_nil, List.append_nil] at hscan
  rw [ofText?, compact, String.toList_ofList, hscan]
  exact ofTokens?_tokens h

theorem ofText?_pretty {value : JsonValue} (h : value.Plain) :
    ofText? value.pretty = some value := by
  have hscan := spells_prettyChars h 0 follows_nil
  rw [List.append_nil, List.append_nil] at hscan
  rw [ofText?, pretty, String.toList_ofList, hscan]
  exact ofTokens?_tokens h

end JsonValue

end BoundedPlanning
