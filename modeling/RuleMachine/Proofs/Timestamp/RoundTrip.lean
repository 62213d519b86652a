import Mathlib.Data.List.Induction
import Mathlib.Data.List.TakeWhile
import RuleMachine.Proofs.Timestamp.Calendar
import RuleMachine.Timestamp.Text

/-! # Reading timestamps back

Every number of a timestamp is written in digits and followed by something else, so
each reader takes the number that was written and stops behind it.
-/

namespace RuleMachine

namespace Timestamp

/-! ## Numbers -/

section Numbers

variable {width value limit : Nat} {digits : List Char} {mark : Char}

theorem toList_padded (width value : Nat) : (padded width value).toList =
    List.replicate (width - (Nat.toDigits 10 value).length) '0' ++ Nat.toDigits 10 value := by
  simp [padded, Nat.toString_eq_repr, ← String.length_toList]

theorem isDigit_of_mem_padded {digit : Char} (h : digit ∈ (padded width value).toList) :
    digit.isDigit = true := by
  rw [toList_padded, List.mem_append] at h
  obtain h | h := h
  · rw [List.eq_of_mem_replicate h]
    rfl
  · exact Nat.isDigit_of_mem_toDigits (by decide) (by decide) h

theorem padded_ne_nil (width value : Nat) : (padded width value).toList ≠ [] := by
  rw [toList_padded]
  exact List.append_ne_nil_of_right_ne_nil _ Nat.toDigits_ne_nil

theorem length_padded (hwidth : 0 < width) (h : value < 10 ^ width) :
    (padded width value).toList.length = width := by
  have hlength := (Nat.length_toDigits_le_iff (b := 10) (by decide) hwidth).mpr h
  rw [toList_padded, List.length_append, List.length_replicate]
  omega

theorem digitsValue_padded (width value : Nat) :
    digitsValue (padded width value).toList = value := by
  change Nat.ofDigitChars 10 (padded width value).toList 0 = value
  rw [toList_padded, Nat.ofDigitChars_append, Nat.ofDigitChars_replicate_zero, Nat.mul_zero,
    Nat.ofDigitChars_ten_toDigits]

theorem readDigits_append (hdigits : ∀ digit ∈ digits, digit.isDigit = true) (hne : digits ≠ [])
    (hlength : digits.length ≤ limit) (hmark : mark.isDigit = false) (rest : List Char) :
    readDigits limit (digits ++ mark :: rest) = some (digits, mark :: rest) := by
  have htake : (digits ++ mark :: rest).takeWhile Char.isDigit = digits := by
    rw [List.takeWhile_append_of_pos hdigits, List.takeWhile_cons_of_neg (by simp [hmark]),
      List.append_nil]
  rw [readDigits, htake, List.take_of_length_le hlength]
  simp [hne]

theorem toNat_of_isDigit {digit : Char} (h : digit.isDigit = true) :
    48 ≤ digit.toNat ∧ digit.toNat ≤ 57 := by
  simpa [Char.isDigit, UInt32.le_iff_toNat_le] using h

theorem isBlank_of_isDigit {digit : Char} (h : digit.isDigit = true) : isBlank digit = false := by
  have hcode := toNat_of_isDigit h
  simp [isBlank]
  omega

theorem skipBlanks_cons {letter : Char} (h : isBlank letter = false) (rest : List Char) :
    skipBlanks (letter :: rest) = letter :: rest := by
  rw [skipBlanks, List.dropWhile_cons, h]
  rfl

theorem skipBlanks_padded (width value : Nat) (rest : List Char) :
    skipBlanks ((padded width value).toList ++ rest) = (padded width value).toList ++ rest := by
  obtain ⟨digit, digits, hdigits⟩ := List.exists_cons_of_ne_nil (padded_ne_nil width value)
  have hdigit : digit.isDigit = true := isDigit_of_mem_padded (by rw [hdigits]; simp)
  rw [hdigits, List.cons_append, skipBlanks_cons (isBlank_of_isDigit hdigit)]

theorem readDigits_padded (hlength : (padded width value).toList.length ≤ limit)
    (hmark : mark.isDigit = false) (rest : List Char) :
    readDigits limit ((padded width value).toList ++ mark :: rest) =
      some ((padded width value).toList, mark :: rest) :=
  readDigits_append (fun _ => isDigit_of_mem_padded) (padded_ne_nil width value) hlength hmark rest

theorem readTwo_padded (h : value < 100) (hmark : mark.isDigit = false) (rest : List Char) :
    readTwo ((padded 2 value).toList ++ mark :: rest) = some (value, mark :: rest) := by
  have hlength : (padded 2 value).toList.length = 2 := length_padded (by decide) h
  simp only [readTwo, skipBlanks_padded, readDigits_padded hlength.le hmark, Option.map_some,
    digitsValue_padded]

theorem readMark_cons (h : isBlank mark = false) (rest : List Char) :
    readMark mark (mark :: rest) = some rest := by
  rw [readMark, skipBlanks_cons h]
  exact if_pos rfl

end Numbers

/-! ## Dates -/

section Dates

variable {mark : Char}

theorem readYear_padded {value : Nat} (h : value < 10000) (hmark : mark.isDigit = false)
    (rest : List Char) :
    readYear ((padded 4 value).toList ++ mark :: rest) = some ((value : Int), mark :: rest) := by
  have hlength : (padded 4 value).toList.length = 4 := length_padded (by decide) h
  have hread := readDigits_padded hlength.le hmark rest
  have hvalue := digitsValue_padded 4 value
  obtain ⟨digit, digits, hdigits⟩ := List.exists_cons_of_ne_nil (padded_ne_nil 4 value)
  have hdigit : digit.isDigit = true := isDigit_of_mem_padded (by rw [hdigits]; simp)
  rw [hdigits, List.cons_append] at hread
  rw [hdigits] at hvalue
  rw [hdigits, List.cons_append, readYear, skipBlanks_cons (isBlank_of_isDigit hdigit)]
  -- A digit is no sign.
  split
  next heq =>
    cases heq
    cases hdigit
  next heq =>
    cases heq
    cases hdigit
  next => simp only [hread, Option.map_some, hvalue]

theorem readYear_signed {sign : Char} (hsign : sign = '-' ∨ sign = '+') (value : Nat)
    (hmark : mark.isDigit = false) (rest : List Char) :
    readYear (sign :: ((padded 4 value).toList ++ mark :: rest)) =
      some (if sign = '-' then -(value : Int) else value, mark :: rest) := by
  have hminus : isBlank '-' = false := by decide
  have hplus : isBlank '+' = false := by decide
  have hlimit : (padded 4 value).toList.length ≤ ((padded 4 value).toList ++ mark :: rest).length :=
    by simp
  have hread := readDigits_padded hlimit hmark rest
  obtain rfl | rfl := hsign
  · simp only [readYear, skipBlanks_cons hminus, hread, Option.map_some, digitsValue_padded,
      if_true]
  · simp only [readYear, skipBlanks_cons hplus, hread, Option.map_some, digitsValue_padded]
    rfl

theorem readYear_yearText (year : Int) (hmark : mark.isDigit = false) (rest : List Char) :
    readYear ((yearText year).toList ++ mark :: rest) = some (year, mark :: rest) := by
  have hminus : "-".toList = ['-'] := by simp
  have hplus : "+".toList = ['+'] := by simp
  unfold yearText
  split
  next h => rw [readYear_padded (by omega) hmark, Int.toNat_of_nonneg h.1]
  split
  next hneg =>
    have hyear : -(year.natAbs : Int) = year := by omega
    rw [String.toList_append, hminus, List.append_assoc, List.singleton_append,
      readYear_signed (.inl rfl) _ hmark, if_pos rfl, hyear]
  next hpos =>
    have hyear : (year.natAbs : Int) = year := by omega
    rw [String.toList_append, hplus, List.append_assoc, List.singleton_append,
      readYear_signed (.inr rfl) _ hmark, if_neg (by decide), hyear]

def dateText (date : Date) : List Char :=
  (yearText date.year).toList ++ '-' ::
    ((padded 2 date.month).toList ++ '-' :: (padded 2 date.day).toList)

theorem readDate_dateText {date : Date} (h : date.isValid = true) (hmark : mark.isDigit = false)
    (rest : List Char) : readDate (dateText date ++ mark :: rest) = some (date, mark :: rest) := by
  have hdigit : '-'.isDigit = false := by decide
  have hblank : isBlank '-' = false := by decide
  have hmonth : date.month < 100 := by
    simp [Date.isValid] at h
    omega
  have hday : date.day < 100 := by
    have hlength : Date.monthLength date.year date.month ≤ 31 := by
      unfold Date.monthLength
      split_ifs <;> omega
    simp [Date.isValid] at h
    omega
  simp only [readDate, dateText, List.append_assoc, List.cons_append, readYear_yearText _ hdigit,
    Option.bind_eq_bind, Option.bind_some, readMark_cons hblank, readTwo_padded hmonth hdigit,
    readTwo_padded hday hmark]
  rfl

end Dates

/-! ## Times of day -/

theorem toList_dot_append (digits : String) (rest : List Char) :
    ("." ++ digits).toList ++ rest = '.' :: (digits.toList ++ rest) := by
  simp

theorem readFraction_dot {width value nanos : Nat} (hwidth : 0 < width) (hle : width ≤ 9)
    (h : value < 10 ^ width) (hnanos : value * 10 ^ (9 - width) = nanos) (rest : List Char) :
    readFraction (("." ++ padded width value).toList ++ 'Z' :: rest) =
      some (nanos, 'Z' :: rest) := by
  have hlength := length_padded hwidth h
  have hdigit : 'Z'.isDigit = false := by decide
  have hread := readDigits_padded (hlength.le.trans hle) hdigit rest
  rw [toList_dot_append, ← hnanos]
  simp only [readFraction, hread, Option.bind_eq_bind, Option.bind_some, digitsValue_padded,
    hlength, List.dropWhile_cons, hdigit]
  rfl

theorem readFraction_fractionText {nanos : Nat} (h : nanos < nanosPerSecond) (rest : List Char) :
    readFraction ((fractionText nanos).toList ++ 'Z' :: rest) = some (nanos, 'Z' :: rest) := by
  unfold nanosPerSecond at h
  unfold fractionText
  split
  next hzero =>
    rw [hzero]
    rfl
  split
  next hmillis => exact readFraction_dot (by decide) (by decide) (by omega) (by omega) rest
  split
  next hmicros => exact readFraction_dot (by decide) (by decide) (by omega) (by omega) rest
  next => exact readFraction_dot (by decide) (by decide) (by omega) (by omega) rest

/-- A fraction does not go on with the digits in front of it. -/
theorem exists_fractionText_append (nanos : Nat) (rest : List Char) : ∃ mark others,
    (fractionText nanos).toList ++ 'Z' :: rest = mark :: others ∧ mark.isDigit = false := by
  have hdot (digits : String) : ∃ mark others,
      ("." ++ digits).toList ++ 'Z' :: rest = mark :: others ∧ mark.isDigit = false :=
    ⟨'.', _, toList_dot_append digits _, by decide⟩
  unfold fractionText
  split
  next => exact ⟨'Z', rest, by simp, by decide⟩
  split
  next => exact hdot _
  split
  next => exact hdot _
  next => exact hdot _

def ClockTime.text (time : ClockTime) : List Char :=
  (padded 2 time.hour).toList ++ ':' :: ((padded 2 time.minute).toList ++ ':' ::
    ((padded 2 time.second).toList ++ (fractionText time.nanos).toList))

theorem readTime_text {time : ClockTime} (h : time.isValid = true)
    (hnanos : time.nanos < nanosPerSecond) (rest : List Char) :
    readTime (time.text ++ 'Z' :: rest) = some (time, 'Z' :: rest) := by
  obtain ⟨⟨hhour, hminute⟩, hsecond⟩ : (time.hour ≤ 23 ∧ time.minute ≤ 59) ∧ time.second ≤ 60 := by
    simpa [ClockTime.isValid] using h
  have hdigit : ':'.isDigit = false := by decide
  have hblank : isBlank ':' = false := by decide
  have hfraction := readFraction_fractionText hnanos rest
  obtain ⟨mark, others, heq, hmark⟩ := exists_fractionText_append time.nanos rest
  rw [heq] at hfraction
  simp only [readTime, ClockTime.text, List.append_assoc, List.cons_append, heq,
    readTwo_padded (show time.hour < 100 by omega) hdigit,
    readTwo_padded (show time.minute < 100 by omega) hdigit,
    readTwo_padded (show time.second < 100 by omega) hmark, readMark_cons hblank, hfraction,
    Option.bind_eq_bind, Option.bind_some]
  rfl

/-! ## Instants -/

def clockTime (instant : Timestamp) : ClockTime :=
  { hour := instant.secondOfDay / 3600
    minute := instant.secondOfDay / 60 % 60
    second := instant.secondOfDay % 60 + instant.nanos / nanosPerSecond
    nanos := instant.nanos % nanosPerSecond }

/-- The parts of the text, as they are read. -/
theorem toList_text (instant : Timestamp) : instant.text.toList =
    dateText (Date.ofDay instant.day) ++ 'T' :: (instant.clockTime.text ++ ['Z']) := by
  simp [text, dateText, clockTime, ClockTime.text, toString]

/-- Whether the instant can be made from its Unix time. -/
def IsValid (instant : Timestamp) : Prop :=
  ofUnix? instant.seconds instant.nanos = some instant

theorem isValid_iff {instant : Timestamp} : instant.IsValid ↔
    instant.nanos < 2 * nanosPerSecond ∧
      (instant.nanos < nanosPerSecond ∨ instant.seconds % 60 = 59) ∧ instant.inRange = true := by
  simp [IsValid, ofUnix?, and_assoc]

theorem seconds_eq (instant : Timestamp) :
    instant.seconds = instant.day * secondsPerDay + instant.secondOfDay := by
  change instant.seconds = instant.seconds / 86400 * 86400 + (instant.seconds % 86400).toNat
  omega

theorem secondOfDay_lt (instant : Timestamp) : instant.secondOfDay < secondsPerDay := by
  change (instant.seconds % 86400).toNat < 86400
  omega

theorem isValid_date {instant : Timestamp} (h : instant.inRange = true) :
    (Date.ofDay instant.day).isValid = true := by
  rw [Date.isValid_ofDay]
  exact h

/-- A leap second is the sixtieth of its minute, and no other second is. -/
theorem second_clockTime {instant : Timestamp} (h : instant.IsValid) :
    (instant.clockTime.second = instant.secondOfDay % 60 ∧
      instant.clockTime.nanos = instant.nanos ∧ instant.secondOfDay % 60 < 60) ∨
    (instant.clockTime.second = 60 ∧
      instant.clockTime.nanos + nanosPerSecond = instant.nanos ∧
      instant.secondOfDay % 60 = 59) := by
  obtain ⟨hnanos, hleap, -⟩ := isValid_iff.mp h
  have hseconds := instant.seconds_eq
  simp only [clockTime]
  unfold nanosPerSecond secondsPerDay at *
  obtain hlt | hge := Nat.lt_or_ge instant.nanos 1000000000
  · left
    omega
  · right
    omega

theorem isValid_clockTime {instant : Timestamp} (h : instant.IsValid) :
    instant.clockTime.isValid = true := by
  have hlt := instant.secondOfDay_lt
  have hhour : instant.clockTime.hour = instant.secondOfDay / 3600 := rfl
  have hminute : instant.clockTime.minute = instant.secondOfDay / 60 % 60 := rfl
  have hsecond : instant.clockTime.second ≤ 60 := by
    obtain ⟨heq, -, hless⟩ | ⟨heq, -, -⟩ := second_clockTime h <;> omega
  simp only [ClockTime.isValid, Bool.and_eq_true, decide_eq_true_eq]
  unfold secondsPerDay at hlt
  omega

theorem ofLocal?_clockTime {instant : Timestamp} (h : instant.IsValid) :
    ofLocal? (Date.ofDay instant.day) instant.clockTime 0 = some instant := by
  obtain ⟨hnanos, hleap, hrange⟩ := isValid_iff.mp h
  have hdate := isValid_date hrange
  have htime := isValid_clockTime h
  have hseconds := instant.seconds_eq
  have hhour : instant.clockTime.hour = instant.secondOfDay / 3600 := rfl
  have hminute : instant.clockTime.minute = instant.secondOfDay / 60 % 60 := rfl
  have hoffset : Int.natAbs 0 < secondsPerDay := by decide
  obtain ⟨hsecond, hnanos, hless⟩ | ⟨hsecond, hnanos, hlast⟩ := second_clockTime h
  · have hne : ¬instant.clockTime.second = 60 := by omega
    have hback : instant.day * secondsPerDay + (instant.clockTime.hour * 3600 +
        instant.clockTime.minute * 60 + instant.clockTime.second : Nat) - 0 = instant.seconds := by
      omega
    simp only [ofLocal?, Date.toDay_ofDay, hne, if_false, hback, hnanos, Nat.add_zero, hdate,
      htime, hoffset, hrange]
    rfl
  · have hback : instant.day * secondsPerDay + (instant.clockTime.hour * 3600 +
        instant.clockTime.minute * 60 + 59 : Nat) - 0 = instant.seconds := by
      omega
    simp only [ofLocal?, Date.toDay_ofDay, hsecond, if_true, hback, hnanos, hdate, htime,
      hoffset, hrange]
    rfl

/-- The text of an instant is read back as the instant, leap seconds included. -/
theorem ofText?_text {instant : Timestamp} (h : instant.IsValid) :
    ofText? instant.text = some instant := by
  obtain ⟨hnanos, hleap, hrange⟩ := isValid_iff.mp h
  have hmark : 'T'.isDigit = false := by decide
  have hblank : isBlank 'Z' = false := by decide
  have hpos : instant.clockTime.nanos < nanosPerSecond := Nat.mod_lt _ (by decide)
  have hoffset : readOffset ['Z'] = some (0, []) := by decide
  simp only [ofText?, toList_text, readDate_dateText (isValid_date hrange) hmark,
    readTime_text (isValid_clockTime h) hpos, Option.bind_eq_bind, Option.bind_some,
    skipBlanks_cons hblank, hoffset, ofLocal?_clockTime h]
  rfl

/-- The leap second at the end of 2016. -/
example : IsValid ⟨1483228799, 1500000000⟩ ∧
    text ⟨1483228799, 1500000000⟩ = "2016-12-31T23:59:60.500Z" :=
  ⟨rfl, by decide⟩

/-! ## What can be read

Whatever the text, an instant that is read from it is one that can be made.
-/

theorem digitsValue_lt {digits : List Char} (h : ∀ digit ∈ digits, digit.isDigit = true) :
    digitsValue digits < 10 ^ digits.length := by
  induction digits using List.reverseRecOn with
  | nil => decide
  | append_singleton digits digit ih =>
      have hlt := ih fun other hother => h other (List.mem_append_left _ hother)
      have hdigit := toNat_of_isDigit (h digit (by simp))
      have hvalue : digitsValue (digits ++ [digit]) =
          10 * digitsValue digits + (digit.toNat - 48) := by
        rw [digitsValue, List.foldl_append]
        rfl
      rw [hvalue, List.length_append, List.length_singleton, Nat.pow_succ]
      omega

theorem readDigits_some {limit : Nat} {input digits rest : List Char}
    (h : readDigits limit input = some (digits, rest)) :
    digits.length ≤ limit ∧ ∀ digit ∈ digits, digit.isDigit = true := by
  simp only [readDigits, Option.ite_none_left_eq_some, Option.some.injEq, Prod.mk.injEq] at h
  obtain ⟨-, rfl, -⟩ := h
  exact ⟨List.length_take_le _ _, fun digit hdigit =>
    List.mem_takeWhile_imp (List.mem_of_mem_take hdigit)⟩

theorem readFraction_lt {input rest : List Char} {nanos : Nat}
    (h : readFraction input = some (nanos, rest)) : nanos < nanosPerSecond := by
  unfold readFraction at h
  split at h
  next input =>
    obtain ⟨⟨digits, after⟩, hdigits, heq⟩ := Option.bind_eq_some_iff.mp h
    obtain ⟨hlength, hall⟩ := readDigits_some hdigits
    cases heq
    calc
      digitsValue digits * 10 ^ (9 - digits.length) <
          10 ^ digits.length * 10 ^ (9 - digits.length) :=
        Nat.mul_lt_mul_of_pos_right (digitsValue_lt hall) (Nat.pow_pos (by decide))
      _ = nanosPerSecond := by
        rw [← Nat.pow_add, Nat.add_sub_cancel' hlength]
  next =>
    cases h
    decide

theorem readTime_lt {input rest : List Char} {time : ClockTime}
    (h : readTime input = some (time, rest)) : time.nanos < nanosPerSecond := by
  simp only [readTime, Option.bind_eq_bind, Option.bind_eq_some_iff] at h
  obtain ⟨_, -, _, -, _, -, _, -, _, -, ⟨nanos, after⟩, hfraction, heq⟩ := h
  cases heq
  exact readFraction_lt hfraction

theorem readOffsetDigits_some {input rest : List Char} {offset : Nat}
    (h : readOffsetDigits input = some (offset, rest)) : offset % 60 = 0 := by
  simp only [readOffsetDigits, Option.bind_eq_bind, Option.bind_eq_some_iff] at h
  obtain ⟨⟨hours, _⟩, -, ⟨minutes, _⟩, -, heq⟩ := h
  split at heq
  next =>
    cases heq
    omega
  next => cases heq

theorem map_readOffsetDigits_some {f : Nat → Int} {input rest : List Char} {offset : Int}
    (hf : ∀ seconds, seconds % 60 = 0 → f seconds % 60 = 0)
    (h : (readOffsetDigits input).map (fun (seconds, rest) => (f seconds, rest)) =
      some (offset, rest)) : offset % 60 = 0 := by
  obtain ⟨⟨seconds, after⟩, hdigits, heq⟩ := Option.map_eq_some_iff.mp h
  cases heq
  exact hf seconds (readOffsetDigits_some hdigits)

/-- Offsets are whole minutes, so a leap second stays the last of its minute. -/
theorem readOffset_some {input rest : List Char} {offset : Int}
    (h : readOffset input = some (offset, rest)) : offset % 60 = 0 := by
  have hahead (seconds : Nat) (h : seconds % 60 = 0) : (seconds : Int) % 60 = 0 := by omega
  have hbehind (seconds : Nat) (h : seconds % 60 = 0) : -(seconds : Int) % 60 = 0 := by omega
  unfold readOffset at h
  split at h
  next =>
    cases h
    rfl
  split at h
  next =>
    cases h
    rfl
  next =>
    cases h
    rfl
  next => exact map_readOffsetDigits_some hahead h
  next => exact map_readOffsetDigits_some hbehind h
  next => exact map_readOffsetDigits_some hbehind h
  next => cases h

theorem isValid_of_ofLocal? {date : Date} {time : ClockTime} {offset : Int} {instant : Timestamp}
    (hnanos : time.nanos < nanosPerSecond) (hoffset : offset % 60 = 0)
    (h : ofLocal? date time offset = some instant) : instant.IsValid := by
  simp only [ofLocal?, Option.ite_none_right_eq_some, Bool.and_eq_true, Option.some.injEq] at h
  obtain ⟨⟨-, hrange⟩, rfl⟩ := h
  rw [isValid_iff]
  refine ⟨?_, ?_, hrange⟩
  · dsimp only
    split <;> omega
  · dsimp only
    unfold secondsPerDay
    split
    next => right; omega
    next => left; omega

theorem isValid_of_readTime {date : Date} {input : List Char} {instant : Timestamp} (h : (do
    let (time, rest) ← readTime input
    let (offset, rest) ← readOffset (skipBlanks rest)
    if (skipBlanks rest).isEmpty then ofLocal? date time offset else none) = some instant) :
    instant.IsValid := by
  simp only [Option.bind_eq_bind, Option.bind_eq_some_iff] at h
  obtain ⟨⟨time, _⟩, htime, ⟨offset, _⟩, hoffset, h⟩ := h
  split at h
  next => exact isValid_of_ofLocal? (readTime_lt htime) (readOffset_some hoffset) h
  next => cases h

theorem isValid_of_ofText? {text : String} {instant : Timestamp}
    (h : ofText? text = some instant) : instant.IsValid := by
  obtain ⟨⟨date, rest⟩, -, h⟩ := Option.bind_eq_some_iff.mp h
  dsimp only at h
  split at h
  next => exact isValid_of_readTime h
  next => exact isValid_of_readTime h
  next => exact isValid_of_readTime h
  next => cases h

end Timestamp

end RuleMachine
