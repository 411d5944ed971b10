import BoundedPlanning.Calendar.Date
import BoundedPlanning.Text.Blank
import BoundedPlanning.Text.Digits

namespace BoundedPlanning

/-- A time of day.  In the last second of a minute the nanoseconds may run on for another second,
which is a leap second. -/
structure TimeOfDay where
  hour : Nat
  minute : Nat
  second : Nat
  nano : Nat
  hour_lt : hour < 24
  minute_lt : minute < 60
  second_lt : second < 60
  nano_lt : nano < if second = 59 then 2000000000 else 1000000000
  deriving DecidableEq

/-- A date and a time of day in UTC. -/
structure Timestamp where
  date : Date
  time : TimeOfDay
  deriving DecidableEq

def isKnownYear (year : Int) : Bool := decide (-262143 ≤ year) && decide (year ≤ 262142)

namespace TimeOfDay

/-- The time with the given numbers, if it exists; the second may be 60. -/
def ofNumbers? (hour minute second nano : Nat) : Option TimeOfDay :=
  let (second, nano) := if second = 60 then (59, nano + 1000000000) else (second, nano)
  if h : hour < 24 ∧ minute < 60 ∧ second < 60 ∧
      nano < if second = 59 then 2000000000 else 1000000000 then
    some ⟨hour, minute, second, nano, h.1, h.2.1, h.2.2.1, h.2.2.2⟩
  else none

def withMinutes (time : TimeOfDay) (minutes : Nat) : TimeOfDay :=
  ⟨minutes / 60 % 24, minutes % 60, time.second, time.nano, by omega, by omega, time.second_lt,
    time.nano_lt⟩

end TimeOfDay

namespace Timestamp

def epoch : Timestamp :=
  ⟨⟨1970, 1, 1, by decide, by decide⟩, ⟨0, 0, 0, 0, by decide, by decide, by decide, by decide⟩⟩

/-- The point in time that has the given local date and time so many minutes ahead of UTC. -/
def ofLocal (date : Date) (time : TimeOfDay) (offset : Int) : Timestamp :=
  let minutes := (time.hour * 60 + time.minute : Int) - offset
  let date := if minutes < 0 then date.previous else if 1440 ≤ minutes then date.next else date
  ⟨date, time.withMinutes (minutes % 1440).toNat⟩

/-! ### Writing -/

/-- A number in decimal, filled with zeros up to a width. -/
def padded (width n : Nat) : List Char :=
  let digits := (toString n).toList
  List.replicate (width - digits.length) '0' ++ digits

/-- A year: four digits, or a sign and at least four digits outside the years 0 to 9999. -/
def yearChars (year : Int) : List Char :=
  if 0 ≤ year ∧ year ≤ 9999 then padded 4 year.toNat
  else (if year < 0 then '-' else '+') :: padded 4 year.natAbs

/-- The fraction of a second, in as few groups of three digits as are exact. -/
def fractionChars (nano : Nat) : List Char :=
  if nano = 0 then []
  else if nano % 1000000 = 0 then '.' :: padded 3 (nano / 1000000)
  else if nano % 1000 = 0 then '.' :: padded 6 (nano / 1000)
  else '.' :: padded 9 nano

def chars (stamp : Timestamp) : List Char :=
  let isLeap := decide (1000000000 ≤ stamp.time.nano)
  let second := if isLeap then stamp.time.second + 1 else stamp.time.second
  yearChars stamp.date.year ++ '-' :: padded 2 stamp.date.month ++ '-' :: padded 2 stamp.date.day ++
    'T' :: padded 2 stamp.time.hour ++ ':' :: padded 2 stamp.time.minute ++
    ':' :: padded 2 second ++ fractionChars (stamp.time.nano % 1000000000) ++ ['Z']

def text (stamp : Timestamp) : String := String.ofList stamp.chars

/-! ### Reading -/

/-- The digits at the front, at least one and at most `width`, and what follows. -/
def scanNumber (width : Nat) (cs : List Char) : Option (Nat × List Char) :=
  let digits := (cs.take width).takeWhile Char.isDigit
  if digits.isEmpty then none else some (decimalValue digits, cs.drop digits.length)

def scanField (width : Nat) (cs : List Char) : Option (Nat × List Char) :=
  scanNumber width (skipBlanks cs)

/-- A year after blanks: up to four digits, or any number of them after a sign. -/
def scanYear (cs : List Char) : Option (Int × List Char) :=
  match skipBlanks cs with
  | '-' :: rest => (scanNumber rest.length rest).map fun (year, rest) => (-(year : Int), rest)
  | '+' :: rest => (scanNumber rest.length rest).map fun (year, rest) => ((year : Int), rest)
  | rest => (scanNumber 4 rest).map fun (year, rest) => ((year : Int), rest)

def scanSign (sign : Char) (cs : List Char) : Option (List Char) :=
  match skipBlanks cs with
  | c :: rest => if c = sign then some rest else none
  | [] => none

/-- The nanoseconds of an optional fraction; digits after the ninth are skipped. -/
def scanFraction (cs : List Char) : Option (Nat × List Char) :=
  match cs with
  | '.' :: rest => do
    let digits := (rest.take 9).takeWhile Char.isDigit
    if digits.isEmpty then none
    else
      return (decimalValue (digits ++ List.replicate (9 - digits.length) '0'),
        (rest.drop digits.length).dropWhile Char.isDigit)
  | _ => some (0, cs)

def isUtcName (cs : List Char) : Bool := cs.map Char.toLower == ['u', 't', 'c']

/-- The minutes after a sign of an offset: two digits for the hours below 24, colons and blanks,
two digits for the minutes below 60. -/
def scanOffsetMinutes (cs : List Char) : Option (Nat × List Char) :=
  match cs with
  | h :: h' :: rest =>
    match rest.dropWhile fun c => c == ':' || isBlankChar c with
    | m :: m' :: rest =>
      let hours := decimalValue [h, h']
      let minutes := decimalValue [m, m']
      if [h, h', m, m'].all Char.isDigit ∧ hours < 24 ∧ minutes < 60 then
        some (hours * 60 + minutes, rest)
      else none
    | _ => none
  | _ => none

def scanOffset (cs : List Char) : Option (Int × List Char) :=
  if isUtcName (cs.take 3) then some (0, cs.drop 3)
  else
    match cs with
    | 'Z' :: rest => some (0, rest)
    | 'z' :: rest => some (0, rest)
    | '+' :: rest => (scanOffsetMinutes rest).map fun (minutes, rest) => ((minutes : Int), rest)
    | '-' :: rest => (scanOffsetMinutes rest).map fun (minutes, rest) => (-(minutes : Int), rest)
    | '−' :: rest => (scanOffsetMinutes rest).map fun (minutes, rest) => (-(minutes : Int), rest)
    | _ => none

def scanDateEnd : List Char → Option (List Char)
  | 'T' :: rest => some rest
  | 't' :: rest => some rest
  | ' ' :: rest => some rest
  | _ => none

def scanDate (cs : List Char) : Option (Date × List Char) := do
  let (year, cs) ← scanYear cs
  let cs ← scanSign '-' cs
  let (month, cs) ← scanField 2 cs
  let cs ← scanSign '-' cs
  let (day, cs) ← scanField 2 cs
  if isKnownYear year then
    let date ← Date.ofNumbers? year month day
    return (date, cs)
  else none

def scanTime (cs : List Char) : Option (TimeOfDay × List Char) := do
  let (hour, cs) ← scanField 2 cs
  let cs ← scanSign ':' cs
  let (minute, cs) ← scanField 2 cs
  let cs ← scanSign ':' cs
  let (second, cs) ← scanField 2 cs
  let (nano, cs) ← scanFraction cs
  let time ← TimeOfDay.ofNumbers? hour minute second nano
  return (time, cs)

/-- Read a point in time: a date, a separator, a time and an offset, with blanks between the parts
and after them. -/
def ofChars? (cs : List Char) : Option Timestamp := do
  let (date, cs) ← scanDate cs
  let cs ← scanDateEnd cs
  let (time, cs) ← scanTime cs
  let (offset, cs) ← scanOffset (skipBlanks cs)
  let stamp := ofLocal date time offset
  if (skipBlanks cs).isEmpty && isKnownYear stamp.date.year then return stamp
  else none

def ofText? (text : String) : Option Timestamp := ofChars? text.toList

end Timestamp

end BoundedPlanning
