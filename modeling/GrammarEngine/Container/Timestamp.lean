import GrammarEngine.Text.Numeral

/-!
# Times of creation

A manifest says when it was made: a date and a time of day with an offset. It is written without an
offset from universal time. Where it is read, numbers may have blanks before them, the letter
between date and time may be lower case or a blank, and the offset may be written `UTC`.
-/
namespace GrammarEngine.Timestamp

/-- A reader takes a prefix of a text and answers a value and the rest. -/
abbrev Reader (α : Type) := List Char → Option (α × List Char)

/-- The digits at the start of a text, at most a given number of them. -/
def leadingDigits : Nat → List Char → List Char × List Char
  | 0, cs => ([], cs)
  | _ + 1, [] => ([], [])
  | width + 1, c :: rest =>
    if c.isDigit then (c :: (leadingDigits width rest).1, (leadingDigits width rest).2)
    else ([], c :: rest)

def value (cs : List Char) : Nat := (Text.digitsValue? 10 Text.decimalValue? cs).getD 0

/-- A number of at least one and at most `width` digits. -/
def number (width : Nat) : Reader Nat := fun cs =>
  match leadingDigits width cs with
  | ([], _) => none
  | (ds, rest) => some (value ds, rest)

/-- A number with blanks before it, up to a limit. -/
def field (limit : Nat) : Reader Nat := fun cs =>
  match number 2 (Text.trimStart cs) with
  | some (n, rest) => if n ≤ limit then some (n, rest) else none
  | none => none

/-- A year has four digits at most unless a sign stands before it. -/
def year : Reader Int := fun cs =>
  match Text.trimStart cs with
  | '-' :: rest => (number rest.length rest).map fun (n, rest) => (-n, rest)
  | '+' :: rest => (number rest.length rest).map fun (n, rest) => (n, rest)
  | cs => (number 4 cs).map fun (n, rest) => (n, rest)

/-- A separator with blanks before it. -/
def separator (c : Char) : Reader Unit := fun cs =>
  match Text.trimStart cs with
  | d :: rest => if d == c then some ((), rest) else none
  | [] => none

/-- The years that can be represented. -/
def minYear : Int := -262143

def maxYear : Int := 262142

def isLeapYear (y : Int) : Bool := y % 4 == 0 && (y % 100 != 0 || y % 400 == 0)

def daysIn (y : Int) (month : Nat) : Nat :=
  if month == 2 then (if isLeapYear y then 29 else 28)
  else if month == 4 || month == 6 || month == 9 || month == 11 then 30
  else 31

def isDate (y : Int) (month day : Nat) : Bool :=
  minYear ≤ y && y ≤ maxYear && 1 ≤ month && month ≤ 12 && 1 ≤ day && day ≤ daysIn y month

/-- A day of the calendar. -/
structure Date where
  year : Int
  month : Nat
  day : Nat
deriving Repr, DecidableEq

def firstDate : Date := ⟨minYear, 1, 1⟩

def lastDate : Date := ⟨maxYear, 12, 31⟩

def date : Reader Date := fun cs => do
  let (y, cs) ← year cs
  let (_, cs) ← separator '-' cs
  let (month, cs) ← field 12 cs
  let (_, cs) ← separator '-' cs
  let (day, cs) ← field 31 cs
  if isDate y month day then some (⟨y, month, day⟩, cs) else none

/-- Digits behind a decimal point, where there is one. -/
def fraction : Reader Unit := fun cs =>
  match cs with
  | '.' :: rest =>
    match rest.takeWhile Char.isDigit with
    | [] => none
    | _ => some ((), rest.dropWhile Char.isDigit)
  | _ => some ((), cs)

/-- The seconds since midnight. A second 60 is the last one of its minute. -/
def timeOfDay : Reader Nat := fun cs => do
  let (hours, cs) ← field 23 cs
  let (_, cs) ← separator ':' cs
  let (minutes, cs) ← field 59 cs
  let (_, cs) ← separator ':' cs
  let (seconds, cs) ← field 60 cs
  let (_, cs) ← fraction cs
  some (hours * 3600 + minutes * 60 + min seconds 59, cs)

/-- Two digits, the first not above a limit. -/
def twoDigits (first : Char) : Reader Nat := fun cs =>
  match cs with
  | a :: b :: rest =>
    if a.isDigit && a ≤ first && b.isDigit then some (value [a, b], rest) else none
  | _ => none

/-- Hours and minutes in seconds, with colons and blanks between them; less than a day. -/
def hoursAndMinutes : Reader Nat := fun cs => do
  let (hours, cs) ← twoDigits '9' cs
  let cs := cs.dropWhile fun c => c == ':' || Text.isBlank c
  let (minutes, cs) ← twoDigits '5' cs
  if hours < 24 then some (hours * 3600 + minutes * 60, cs) else none

def isUtc (a b c : Char) : Bool := [a.toUpper, b.toUpper, c.toUpper] == ['U', 'T', 'C']

def signedOffset : Reader Int := fun cs =>
  match cs with
  | c :: rest =>
    if c == 'Z' || c == 'z' then some (0, rest)
    else if c == '+' then (hoursAndMinutes rest).map fun (n, rest) => ((n : Int), rest)
    else if c == '-' || c == '\u2212' then
      (hoursAndMinutes rest).map fun (n, rest) => (-(n : Int), rest)
    else none
  | [] => none

/-- The seconds by which a time is ahead of universal time. -/
def offset : Reader Int := fun cs =>
  match cs with
  | a :: b :: c :: rest => if isUtc a b c then some (0, rest) else signedOffset cs
  | _ => signedOffset cs

/-- A time of day on a date with its offset must not lie before the first day or behind the last one
in universal time. -/
def isInRange (d : Date) (seconds : Nat) (offset : Int) : Bool :=
  let universal := seconds - offset
  !(d == firstDate && universal < 0) && !(d == lastDate && 86400 ≤ universal)

/-- Whether a text is a time. -/
def isValid (s : String) : Bool :=
  let rest? := do
    let (d, cs) ← date s.toList
    let cs ← match cs with
      | c :: rest => if c == 'T' || c == 't' || c == ' ' then some rest else none
      | [] => none
    let (seconds, cs) ← timeOfDay cs
    let (offset, cs) ← offset (Text.trimStart cs)
    if isInRange d seconds offset then some cs else none
  (rest?.map fun cs => (Text.trimStart cs).isEmpty).getD false

/-! ## Writing -/

/-- The year, month and day that lie a number of days after the first of January 1970. Years are
counted from the first of March, so that the day a leap year adds is the last one; four hundred
years have 146097 days. -/
def civilDate (days : Nat) : Nat × Nat × Nat :=
  let shifted := days + 719468
  let day := shifted % 146097
  let year := (day - day / 1460 + day / 36524 - day / 146096) / 365
  let dayOfYear := day - (365 * year + year / 4 - year / 100)
  let month := (5 * dayOfYear + 2) / 153
  let dayOfMonth := dayOfYear - (153 * month + 2) / 5 + 1
  let early := month < 10
  (shifted / 146097 * 400 + year + (if early then 0 else 1), if early then month + 3 else month - 9,
    dayOfMonth)

/-- A number with zeros before it. -/
def padded (width n : Nat) : String :=
  let ds := toString n
  String.ofList (List.replicate (width - ds.length) '0') ++ ds

/-- The time that lies a number of seconds after the beginning of 1970, with billionths of one. -/
def ofUnix (seconds nanos : Nat) : String :=
  let (y, m, d) := civilDate (seconds / 86400)
  let time := seconds % 86400
  let date := padded 4 y ++ "-" ++ padded 2 m ++ "-" ++ padded 2 d
  let clock := padded 2 (time / 3600) ++ ":" ++ padded 2 (time / 60 % 60) ++ ":" ++
    padded 2 (time % 60)
  date ++ "T" ++ clock ++ "." ++ padded 9 nanos ++ "+00:00"

end GrammarEngine.Timestamp
