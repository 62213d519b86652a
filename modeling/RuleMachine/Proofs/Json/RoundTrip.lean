import Mathlib.Data.List.DropRight
import Mathlib.Data.List.Forall2
import RuleMachine.Json.Reader

/-! # Reading what was written

Strings, arrays and objects are read back as what was written, whatever characters
the strings have.
-/

namespace RuleMachine

namespace Json

/-! ## Strings -/

theorem hexValue?_hexDigit : ∀ value < 16, hexValue? (hexDigit value) = some value := by decide

/-- A code unit that is no surrogate stands for its character, whatever comes after it. -/
theorem decodePieces_codeUnit {value : Nat} (h : value < 0xD800) (pieces : List Piece) :
    decodePieces (.codeUnit value :: pieces) =
      (decodePieces pieces).map (Char.ofNat value :: ·) := by
  have hhigh : isHighSurrogate value = false := by simp [isHighSurrogate, Nat.not_le.mpr h]
  have hlow : isLowSurrogate value = false := by simp [isLowSurrogate]; omega
  match pieces with
  | [] => simp [decodePieces, hhigh, hlow]
  | .char letter :: rest => simp [decodePieces, hhigh, hlow]
  | .codeUnit low :: rest => simp [decodePieces, hhigh, hlow]

section Scanning

variable (rest : List Char)

theorem scanPieces_backslash {mark letter : Char} (h : unescape? mark = some letter) :
    scanPieces ('\\' :: mark :: rest) =
      (scanPieces rest).map fun (pieces, rest) => (.char letter :: pieces, rest) := by
  have hmark : mark ≠ 'u' := by
    rintro rfl
    cases h
  rw [scanPieces, h]
  · cases scanPieces rest <;> rfl
  · intros
    exact absurd ‹_› hmark

theorem scanPieces_codeUnit {value : Nat} (h : value < 32) :
    scanPieces (['\\', 'u', '0', '0', hexDigit (value / 16), hexDigit (value % 16)] ++ rest) =
      (scanPieces rest).map fun (pieces, rest) => (.codeUnit value :: pieces, rest) := by
  have hzero : hexValue? '0' = some 0 := rfl
  have hfirst := hexValue?_hexDigit (value / 16) (by omega)
  have hsecond := hexValue?_hexDigit (value % 16) (by omega)
  have hvalue : ((0 * 16 + 0) * 16 + value / 16) * 16 + value % 16 = value := by omega
  simp only [List.cons_append, List.nil_append, scanPieces, hzero, hfirst, hsecond,
    Option.bind_eq_bind, Option.bind_some, hvalue]
  cases scanPieces rest <;> rfl

theorem scanPieces_plain {letter : Char} (hquote : letter ≠ '"') (hbackslash : letter ≠ '\\')
    (h : ¬letter.toNat < 32) : scanPieces (letter :: rest) =
      (scanPieces rest).map fun (pieces, rest) => (.char letter :: pieces, rest) := by
  rw [scanPieces, if_neg (not_or.mpr ⟨hbackslash, h⟩)]
  · cases scanPieces rest <;> rfl
  · exact hquote
  · intros
    exact hbackslash ‹_›
  · intros
    exact hbackslash ‹_›

end Scanning

/-- An escaped character is scanned as one piece, which stands for the character. -/
theorem exists_piece (letter : Char) : ∃ piece,
    (∀ rest, scanPieces (escape letter ++ rest) =
      (scanPieces rest).map fun (pieces, rest) => (piece :: pieces, rest)) ∧
    ∀ pieces, decodePieces (piece :: pieces) = (decodePieces pieces).map (letter :: ·) := by
  unfold escape
  split
  next => exact ⟨.char '"', fun rest => scanPieces_backslash rest rfl, fun pieces => rfl⟩
  next => exact ⟨.char '\\', fun rest => scanPieces_backslash rest rfl, fun pieces => rfl⟩
  next => exact ⟨.char '\n', fun rest => scanPieces_backslash rest rfl, fun pieces => rfl⟩
  next => exact ⟨.char '\r', fun rest => scanPieces_backslash rest rfl, fun pieces => rfl⟩
  next => exact ⟨.char '\t', fun rest => scanPieces_backslash rest rfl, fun pieces => rfl⟩
  next hquote hbackslash _ _ _ =>
    split
    next heq =>
      exact ⟨.char letter, fun rest => scanPieces_backslash rest (heq ▸ rfl), fun pieces => rfl⟩
    split
    next heq =>
      exact ⟨.char letter, fun rest => scanPieces_backslash rest (heq ▸ rfl), fun pieces => rfl⟩
    split
    next hcontrol =>
      refine ⟨.codeUnit letter.toNat, fun rest => scanPieces_codeUnit rest hcontrol, ?_⟩
      intro pieces
      rw [decodePieces_codeUnit (by omega), Char.ofNat_toNat]
    next hplain =>
      exact ⟨.char letter, fun rest => scanPieces_plain rest hquote hbackslash hplain,
        fun pieces => rfl⟩

/-- The pieces of an escaped text stand for the text. -/
theorem exists_pieces (letters rest : List Char) : ∃ pieces,
    scanPieces (letters.flatMap escape ++ '"' :: rest) = some (pieces, rest) ∧
      decodePieces pieces = some letters := by
  induction letters with
  | nil => exact ⟨[], rfl, rfl⟩
  | cons letter letters ih =>
      obtain ⟨pieces, hscan, hdecode⟩ := ih
      obtain ⟨piece, hpiece, hletter⟩ := exists_piece letter
      refine ⟨piece :: pieces, ?_, ?_⟩
      · rw [List.flatMap_cons, List.append_assoc, hpiece, hscan, Option.map_some]
      · rw [hletter, hdecode, Option.map_some]

theorem scanString_escaped (text : String) (rest : List Char) :
    scanString (text.toList.flatMap escape ++ '"' :: rest) = some (some text, rest) := by
  obtain ⟨pieces, hscan, hdecode⟩ := exists_pieces text.toList rest
  simp only [scanString, hscan, hdecode, Option.map_some, String.ofList_toList]

/-! ## Values

Written values hold no blanks between their parts, and one value ends where it
ends: what follows a written value does not matter for reading it.
-/

/-- Whether the reader takes a text for a value, whatever follows, with fuel of
twice the length. -/
def IsWritten (text : List Char) (value : Json) : Prop :=
  ∀ rest fuel, 2 * text.length ≤ fuel → scanValue fuel (text ++ rest) = some (value, rest)

/-- Whether a text is a name between quotes, a colon and a written value. -/
def IsWrittenField (text : List Char) (field : Option String × Json) : Prop :=
  ∃ name written value, text = (quoted name).toList ++ ':' :: written ∧
    field = (some name, value) ∧ IsWritten written value

variable {text rest : List Char} {texts : List (List Char)} {items : List Json}
  {fields : List (Option String × Json)} {fuel : Nat}

theorem skipBlanks_cons {letter : Char} (h : isBlank letter = false) (rest : List Char) :
    skipBlanks (letter :: rest) = letter :: rest := by
  rw [skipBlanks, List.dropWhile_cons, h]
  rfl

theorem skipBlanks_skipBlanks (input : List Char) :
    skipBlanks (skipBlanks input) = skipBlanks input :=
  List.dropWhile_idempotent isBlank input

theorem scanValue_skipBlanks (fuel : Nat) (input : List Char) :
    scanValue fuel (skipBlanks input) = scanValue fuel input := by
  cases fuel <;> simp only [scanValue, skipBlanks_skipBlanks]

theorem scanItems_skipBlanks (fuel : Nat) (input : List Char) :
    scanItems fuel (skipBlanks input) = scanItems fuel input := by
  cases fuel <;> simp only [scanItems, scanValue_skipBlanks]

/-- The text of a name in front of whatever follows it. -/
theorem quoted_append (name : String) (rest : List Char) :
    (quoted name).toList ++ rest = '"' :: (name.toList.flatMap escape ++ '"' :: rest) := by
  simp [quoted]

theorem isWritten_quoted (name : String) :
    IsWritten (quoted name).toList (.string (some name)) := by
  intro rest fuel hfuel
  cases fuel with
  | zero => simp [quoted] at hfuel
  | succ fuel =>
      rw [quoted_append, scanValue, skipBlanks_cons rfl]
      simp only [scanString_escaped, Option.map_some]

/-! ### Arrays -/

section Items

variable {input : List Char} {item : Json}

theorem scanItems_comma (h : scanValue fuel input = some (item, ',' :: rest)) :
    scanItems (fuel + 1) input =
      (scanItems fuel rest).map fun (items, rest) => (item :: items, rest) := by
  have hcomma : isBlank ',' = false := rfl
  simp only [scanItems, h, Option.bind_eq_bind, Option.bind_some, skipBlanks_cons hcomma]
  cases scanItems fuel rest <;> rfl

theorem scanItems_bracket (h : scanValue fuel input = some (item, ']' :: rest)) :
    scanItems (fuel + 1) input = some ([item], rest) := by
  have hbracket : isBlank ']' = false := rfl
  simp only [scanItems, h, Option.bind_eq_bind, Option.bind_some, skipBlanks_cons hbracket]
  rfl

/-- No item starts with the bracket that ends an array. -/
theorem skipBlanks_ne_bracket (h : scanItems fuel input = some (items, rest))
    (others : List Char) : skipBlanks input ≠ ']' :: others := by
  intro hbracket
  rw [← scanItems_skipBlanks, hbracket] at h
  have hnone (fuel : Nat) : scanValue fuel (']' :: others) = none := by cases fuel <;> rfl
  cases fuel with
  | zero => simp [scanItems] at h
  | succ fuel => simp [scanItems, hnone] at h

theorem scanValue_array (h : scanItems fuel input = some (items, rest)) :
    scanValue (fuel + 1) ('[' :: input) = some (.array items, rest) := by
  have hopen : isBlank '[' = false := rfl
  simp only [scanValue, skipBlanks_cons hopen]
  split
  next others heq => exact absurd heq (skipBlanks_ne_bracket h others)
  next => rw [scanItems_skipBlanks, h, Option.map_some]

end Items

theorem scanItems_intercalate (h : List.Forall₂ IsWritten texts items) (hne : texts ≠ [])
    (hfuel : 2 * ([','].intercalate texts).length < fuel) :
    scanItems fuel ([','].intercalate texts ++ ']' :: rest) = some (items, rest) := by
  induction h generalizing fuel with
  | nil => exact absurd rfl hne
  | @cons text item texts items hitem hitems ih =>
      obtain _ | fuel := fuel
      · omega
      obtain _ | ⟨next, texts⟩ := texts
      · cases hitems
        rw [List.intercalate_singleton] at hfuel ⊢
        exact scanItems_bracket (hitem _ fuel (by omega))
      · rw [List.intercalate_cons_cons, List.append_assoc, List.append_assoc, List.singleton_append]
        rw [List.intercalate_cons_cons, List.length_append, List.length_append,
          List.length_singleton] at hfuel
        rw [scanItems_comma (hitem _ fuel (by omega)), ih (by simp) (by omega), Option.map_some]

theorem isWritten_array (h : List.Forall₂ IsWritten texts items) :
    IsWritten ('[' :: [','].intercalate texts ++ [']']) (.array items) := by
  intro rest fuel hfuel
  simp only [List.cons_append, List.append_assoc, List.nil_append, List.length_cons,
    List.length_append, List.length_nil] at hfuel ⊢
  obtain _ | fuel := fuel
  · omega
  obtain rfl | hne := eq_or_ne texts []
  · cases h
    rfl
  · exact scanValue_array (scanItems_intercalate h hne (by omega))

/-! ### Objects -/

section Fields

variable {input : List Char} {value : Json}

theorem scanFields_skipBlanks (fuel : Nat) (input : List Char) :
    scanFields fuel (skipBlanks input) = scanFields fuel input := by
  cases fuel <;> simp only [scanFields, skipBlanks_skipBlanks]

/-- No field starts with the brace that ends an object. -/
theorem skipBlanks_ne_brace (h : scanFields fuel input = some (fields, rest))
    (others : List Char) : skipBlanks input ≠ '\x7d' :: others := by
  intro hbrace
  cases fuel <;> simp [scanFields, hbrace] at h

theorem scanFields_comma (name : String)
    (h : scanValue fuel input = some (value, ',' :: rest)) :
    scanFields (fuel + 1) ((quoted name).toList ++ ':' :: input) =
      (scanFields fuel rest).map fun (fields, rest) => ((some name, value) :: fields, rest) := by
  have hquote : isBlank '"' = false := rfl
  have hcolon : isBlank ':' = false := rfl
  have hcomma : isBlank ',' = false := rfl
  simp only [quoted_append, scanFields, scanString_escaped, h, Option.bind_eq_bind,
    Option.bind_some, skipBlanks_cons hquote, skipBlanks_cons hcolon, skipBlanks_cons hcomma]
  cases scanFields fuel rest <;> rfl

theorem scanFields_brace (name : String)
    (h : scanValue fuel input = some (value, '\x7d' :: rest)) :
    scanFields (fuel + 1) ((quoted name).toList ++ ':' :: input) =
      some ([(some name, value)], rest) := by
  have hquote : isBlank '"' = false := rfl
  have hcolon : isBlank ':' = false := rfl
  have hbrace : isBlank '\x7d' = false := rfl
  simp only [quoted_append, scanFields, scanString_escaped, h, Option.bind_eq_bind,
    Option.bind_some, skipBlanks_cons hquote, skipBlanks_cons hcolon, skipBlanks_cons hbrace]
  rfl

theorem scanValue_object (h : scanFields fuel input = some (fields, rest)) :
    scanValue (fuel + 1) ('\x7b' :: input) = some (.object fields, rest) := by
  have hopen : isBlank '\x7b' = false := rfl
  simp only [scanValue, skipBlanks_cons hopen]
  split
  next others heq => exact absurd heq (skipBlanks_ne_brace h others)
  next => rw [scanFields_skipBlanks, h, Option.map_some]

end Fields

theorem scanFields_intercalate (h : List.Forall₂ IsWrittenField texts fields) (hne : texts ≠ [])
    (hfuel : 2 * ([','].intercalate texts).length < fuel) :
    scanFields fuel ([','].intercalate texts ++ '\x7d' :: rest) = some (fields, rest) := by
  induction h generalizing fuel with
  | nil => exact absurd rfl hne
  | @cons text field texts fields hfield hfields ih =>
      obtain ⟨name, text, value, rfl, rfl, hvalue⟩ := hfield
      obtain _ | fuel := fuel
      · omega
      obtain _ | ⟨next, texts⟩ := texts
      · cases hfields
        rw [List.intercalate_singleton] at hfuel ⊢
        simp only [List.length_append, List.length_cons] at hfuel
        rw [List.append_assoc, List.cons_append]
        exact scanFields_brace name (hvalue _ fuel (by omega))
      · rw [List.intercalate_cons_cons] at hfuel ⊢
        simp only [List.length_append, List.length_cons, List.length_nil] at hfuel
        simp only [List.append_assoc, List.cons_append, List.nil_append]
        rw [scanFields_comma name (hvalue _ fuel (by omega)), ih (by simp) (by omega),
          Option.map_some]

theorem isWritten_object (h : List.Forall₂ IsWrittenField texts fields) :
    IsWritten ('\x7b' :: [','].intercalate texts ++ ['\x7d']) (.object fields) := by
  intro rest fuel hfuel
  simp only [List.cons_append, List.append_assoc, List.nil_append, List.length_cons,
    List.length_append, List.length_nil] at hfuel ⊢
  obtain _ | fuel := fuel
  · omega
  obtain rfl | hne := eq_or_ne texts []
  · cases h
    rfl
  · exact scanValue_object (scanFields_intercalate h hne (by omega))

/-- The common case: an object whose fields are all strings. -/
theorem isWritten_strings (fields : List (String × String)) :
    IsWritten
      ('\x7b' :: [','].intercalate (fields.map fun field =>
        (quoted field.1).toList ++ ':' :: (quoted field.2).toList) ++ ['\x7d'])
      (.object (fields.map fun field => (some field.1, .string (some field.2)))) := by
  apply isWritten_object
  rw [List.forall₂_map_left_iff, List.forall₂_map_right_iff, List.forall₂_same]
  exact fun field _ => ⟨_, _, _, rfl, rfl, isWritten_quoted field.2⟩

/-! ### Whole texts -/

/-- A text that holds one written value and nothing else is read as the value. -/
theorem ofText?_of_isWritten {text : String} {value : Json} (h : IsWritten text.toList value) :
    ofText? text = some value := by
  have hscan := h [] (2 * text.toList.length + 2) (by omega)
  rw [List.append_nil] at hscan
  rw [ofText?, hscan]
  rfl

end Json

end RuleMachine
