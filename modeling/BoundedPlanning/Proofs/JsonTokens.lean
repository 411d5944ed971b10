import BoundedPlanning.Json.Writer
import BoundedPlanning.Proofs.Decimals

namespace BoundedPlanning

/-! ### Strings -/

namespace StringPiece

def ofChar (c : Char) : StringPiece :=
  if c ∈ ['\n', '\r', '\t', '\x08', '\x0c'] ∨ 0x20 ≤ c.toNat then .char c else .unit c.toNat

end StringPiece

namespace JsonToken

theorem hexUnit?_hexChar :
    ∀ n < 0x20, hexUnit? '0' '0' (JsonValue.hexChar (n / 16)) (JsonValue.hexChar (n % 16)) =
      some n := by
  decide

theorem scanPieces_plain {c : Char} {rest : List Char} (hquote : c ≠ '"') (hbackslash : c ≠ '\\')
    (hlow : ¬ c.toNat < 0x20) :
    scanPieces (c :: rest) = (scanPieces rest).map (prependPiece (.char c)) := by
  rw [scanPieces, if_neg (not_or.mpr ⟨hlow, hbackslash⟩)]
  · exact hquote
  · rintro a b d e others rfl
    exact absurd rfl hbackslash
  · rintro letter others rfl
    exact absurd rfl hbackslash

theorem scanPieces_escapeChar (c : Char) (rest : List Char) :
    scanPieces (JsonValue.escapeChar c ++ rest) =
      (scanPieces rest).map (prependPiece (.ofChar c)) := by
  by_cases hletter : c ∈ ['"', '\\', '\n', '\r', '\t', '\x08', '\x0c']
  · simp only [List.mem_cons, List.not_mem_nil, or_false] at hletter
    rcases hletter with rfl | rfl | rfl | rfl | rfl | rfl | rfl
    all_goals rfl
  · simp only [List.mem_cons, List.not_mem_nil, or_false, not_or] at hletter
    obtain ⟨hquote, hbackslash, hn, hr, ht, hb, hf⟩ := hletter
    by_cases hlow : c.toNat < 0x20
    · have hescape : JsonValue.escapeChar c =
          ['\\', 'u', '0', '0', JsonValue.hexChar (c.toNat / 16),
            JsonValue.hexChar (c.toNat % 16)] := by
        simp [JsonValue.escapeChar, hquote, hbackslash, hn, hr, ht, hb, hf, hlow]
      have hpiece : StringPiece.ofChar c = .unit c.toNat := by
        simp [StringPiece.ofChar, hn, hr, ht, hb, hf, hlow]
      simp only [hescape, List.cons_append, List.nil_append]
      rw [scanPieces, hexUnit?_hexChar c.toNat hlow, hpiece]
    · have hescape : JsonValue.escapeChar c = [c] := by
        simp [JsonValue.escapeChar, hquote, hbackslash, hn, hr, ht, hb, hf, hlow]
      rw [hescape, StringPiece.ofChar, if_pos (Or.inr (Nat.le_of_not_lt hlow))]
      exact scanPieces_plain hquote hbackslash hlow

theorem scanPieces_flatMap_escapeChar (cs rest : List Char) :
    scanPieces (cs.flatMap JsonValue.escapeChar ++ '"' :: rest) =
      some (cs.map .ofChar, rest) := by
  induction cs with
  | nil => simp [scanPieces]
  | cons c cs ih =>
      rw [List.flatMap_cons, List.append_assoc, scanPieces_escapeChar, ih]
      rfl

theorem joinPieces_unit {code : Nat} {rest : List StringPiece} (h : code < 0xd800) :
    joinPieces (.unit code :: rest) = (joinPieces rest).map (Char.ofNat code :: ·) := by
  rw [joinPieces.eq_def]
  simp only [if_pos (Or.inl h)]

theorem joinPieces_map_ofChar (cs : List Char) : joinPieces (cs.map .ofChar) = some cs := by
  induction cs with
  | nil => rfl
  | cons c cs ih =>
      rw [List.map_cons, StringPiece.ofChar]
      split
      · rw [joinPieces, ih]
        rfl
      · rename_i hunit
        rw [not_or] at hunit
        rw [joinPieces_unit (by omega), ih, Char.ofNat_toNat]
        rfl

/-! ### Tokens -/

theorem mem_of_ofSign? {c : Char} {token : JsonToken} (h : ofSign? c = some token) :
    c ∈ ['[', ']', '\x7b', '\x7d', ':', ','] := by
  unfold ofSign? at h
  split at h
  all_goals first
    | contradiction
    | simp

theorem not_special_of_isAlphanum {c : Char} (h : c.isAlphanum = true) :
    isBlank c = false ∧ ofSign? c = none ∧ c ≠ '"' := by
  have hspecial : ∀ special ∈ [' ', '\t', '\n', '\r', '"', '[', ']', '\x7b', '\x7d', ':', ','],
      special.isAlphanum = false := by simp
  have hc : c ∉ [' ', '\t', '\n', '\r', '"', '[', ']', '\x7b', '\x7d', ':', ','] := by
    intro hmem
    rw [hspecial c hmem] at h
    cases h
  refine ⟨?_, ?_, ?_⟩
  · simp_all [isBlank]
  · cases hsign : ofSign? c with
    | none => rfl
    | some token =>
        have := mem_of_ofSign? hsign
        simp_all
  · rintro rfl
    simp at hc

/-- The characters begin with none that a number or a word in front of them would take in. -/
def Delimited (rest : List Char) : Prop :=
  ∀ c ∈ rest.head?, c.isAlpha = false ∧ isNumberChar c = false

/-- A text that may follow a value and has the given tokens. -/
structure Follows (rest : List Char) (tokens : List JsonToken) : Prop where
  delimited : Delimited rest
  scan_eq : scan rest = some tokens

/-- In front of what may follow a value, the characters are scanned into the given tokens. -/
def Spells (chars : List Char) (spelled : List JsonToken) : Prop :=
  ∀ {rest : List Char} {tokens : List JsonToken}, Follows rest tokens →
    scan (chars ++ rest) = some (spelled ++ tokens)

variable {c : Char} {rest : List Char} {token : JsonToken} {tokens : List JsonToken}

theorem follows_nil : Follows [] [] :=
  ⟨by simp [Delimited], by rw [scan]⟩

theorem scan_blank (hc : isBlank c = true) : scan (c :: rest) = scan rest := by
  rw [scan, if_pos hc]

theorem scan_sign (hc : ofSign? c = some token) (h : scan rest = some tokens) :
    scan (c :: rest) = some (token :: tokens) := by
  have hnotBlank : ∀ sign ∈ ['[', ']', '\x7b', '\x7d', ':', ','], isBlank sign = false := by
    simp [isBlank]
  rw [scan, hnotBlank c (mem_of_ofSign? hc), hc, h]
  rfl

theorem scan_quote {pieces : List StringPiece} {after : List Char}
    (hpieces : scanPieces rest = some (pieces, after)) (h : scan after = some tokens) :
    scan ('"' :: rest) = some (.string ((joinPieces pieces).map String.ofList) :: tokens) := by
  have hblank : isBlank '"' = false := by decide
  have hsign : ofSign? '"' = none := by decide
  rw [scan, hblank, hsign]
  simp only [Bool.false_eq_true, if_false, if_true]
  split
  · rename_i hnone
    rw [hpieces] at hnone
    cases hnone
  · rename_i found hfound
    rw [hpieces] at hfound
    cases hfound
    rw [h]
    rfl

theorem scan_quoted (text : String) (h : scan rest = some tokens) :
    scan (JsonValue.quoted (some text) ++ rest) = some (.string (some text) :: tokens) := by
  have hpieces : scanPieces (text.toList.flatMap JsonValue.escapeChar ++ ['"'] ++ rest) =
      some (text.toList.map .ofChar, rest) := by
    rw [List.append_assoc]
    exact scanPieces_flatMap_escapeChar _ _
  have hscan := scan_quote hpieces h
  rw [joinPieces_map_ofChar, Option.map_some, String.ofList_toList] at hscan
  exact hscan

theorem delimited_cons (halpha : c.isAlpha = false) (hnumber : isNumberChar c = false) :
    Delimited (c :: rest) := by
  simp [Delimited, halpha, hnumber]

theorem Follows.sign (hc : ofSign? c = some token) (h : scan rest = some tokens) :
    Follows (c :: rest) (token :: tokens) := by
  have hdelimits : ∀ sign ∈ ['[', ']', '\x7b', '\x7d', ':', ','],
      sign.isAlpha = false ∧ isNumberChar sign = false := by simp [isNumberChar]
  obtain ⟨halpha, hnumber⟩ := hdelimits c (mem_of_ofSign? hc)
  exact ⟨delimited_cons halpha hnumber, scan_sign hc h⟩

theorem follows_lineEnd (h : scan rest = some tokens) : Follows ('\n' :: rest) tokens :=
  ⟨delimited_cons (by decide) (by decide), (scan_blank (by decide)).trans h⟩

theorem spells_word {word : List Char} (hword : ∀ c ∈ word, c.isAlpha = true)
    (htoken : ofWord? word = some token) : Spells word [token] := by
  intro rest tokens hrest
  cases word with
  | nil => cases htoken
  | cons c tail =>
      have hc := hword c List.mem_cons_self
      have halphanum : c.isAlphanum = true := by simp [Char.isAlphanum, hc]
      obtain ⟨hblank, hsign, hquote⟩ := not_special_of_isAlphanum halphanum
      obtain ⟨htake, hdrop⟩ := takeWhile_append_of_head
        (fun d hd => hword d (List.mem_cons_of_mem _ hd)) fun d hd => (hrest.delimited d hd).1
      rw [List.cons_append, scan, hblank, hsign]
      simp only [Bool.false_eq_true, if_false, hquote, hc, if_true, htake, hdrop, htoken,
        hrest.scan_eq]
      rfl

theorem isAlpha_of_isDigit {c : Char} (h : c.isDigit = true) : c.isAlpha = false := by
  rw [Char.isDigit_iff_toNat] at h
  change (decide (c.val ≥ 'A'.val ∧ c.val ≤ 'Z'.val) ||
    (decide (c.val ≥ 'a'.val) && decide (c.val ≤ 'z'.val))) = false
  simp [UInt32.le_iff_toNat_le] at h ⊢
  omega

theorem spells_toDigits (n : Nat) : Spells (Nat.toDigits 10 n) [.natural n] := by
  intro rest tokens hrest
  have hnumber := ofNumber?_toDigits n
  obtain ⟨c, tail, hdigits, hc, htail⟩ := exists_toDigits_eq_cons n
  have halpha : c.isAlpha = false := isAlpha_of_isDigit hc
  have halphanum : c.isAlphanum = true := by simp [Char.isAlphanum, hc]
  obtain ⟨hblank, hsign, hquote⟩ := not_special_of_isAlphanum halphanum
  obtain ⟨htake, hdrop⟩ := takeWhile_append_of_head
    (fun d hd => isNumberChar_of_isDigit (htail d hd)) fun d hd => (hrest.delimited d hd).2
  rw [hdigits] at hnumber ⊢
  rw [List.cons_append, scan, hblank, hsign]
  simp only [Bool.false_eq_true, if_false, hquote, halpha, htake, hdrop, hnumber, hrest.scan_eq]
  rfl

end JsonToken

end BoundedPlanning
