import Hypermedia.Script.Library.Argument

/-! Times: seconds since 1970, their dates, and the text of dates. -/
namespace Hypermedia.Script

/-- A date and a time of day; months count from 1, days of the week from Sunday as 0, days of the
year from 0. -/
structure Moment where
  year : Int
  month : Nat
  day : Nat
  hour : Nat
  minute : Nat
  second : Nat
  weekday : Nat
  yearday : Nat
  deriving Repr

namespace Moment

/-- Days from 1970-01-01 to a date of the Gregorian calendar; months run on beyond twelve. -/
def daysTo (year month day : Int) : Int :=
  let year := year + (month - 1).fdiv 12
  let month := (month - 1).fmod 12 + 1
  let y := if month ≤ 2 then year - 1 else year
  let era := y.fdiv 400
  let ofEra := y - era * 400
  let ofYear := (153 * (if 2 < month then month - 3 else month + 9) + 2).fdiv 5
  era * 146097 + ofEra * 365 + ofEra.fdiv 4 - ofEra.fdiv 100 + ofYear + day - 1 - 719468

/-- Seconds from 1970 to a moment whose parts may run on beyond their ranges. -/
def secondsTo (year month day hour minute second : Int) : Int :=
  ((daysTo year month day * 24 + hour) * 60 + minute) * 60 + second

def civil (days : Int) : Int × Nat × Nat :=
  let z := days + 719468
  let era := z.fdiv 146097
  let ofEra := (z - era * 146097).toNat
  let year := (ofEra - ofEra / 1460 + ofEra / 36524 - ofEra / 146096) / 365
  let ofYear := ofEra - (365 * year + year / 4 - year / 100)
  let part := (5 * ofYear + 2) / 153
  let day := ofYear - (153 * part + 2) / 5 + 1
  let month := if part < 10 then part + 3 else part - 9
  (era * 400 + year + (if month ≤ 2 then 1 else 0), month, day)

def ofSeconds (seconds : Int) : Moment :=
  let days := seconds.fdiv 86400
  let rest := (seconds.fmod 86400).toNat
  let (year, month, day) := civil days
  { year, month, day
    hour := rest / 3600
    minute := rest / 60 % 60
    second := rest % 60
    weekday := ((days + 4).fmod 7).toNat
    yearday := (days - daysTo year 1 1).toNat }

def weekdays : List String :=
  ["Sunday", "Monday", "Tuesday", "Wednesday", "Thursday", "Friday", "Saturday"]

def months : List String :=
  ["January", "February", "March", "April", "May", "June", "July", "August", "September",
    "October", "November", "December"]

def padded (n value : Nat) : String :=
  let ds := Decimal.digitsOf value
  String.ofList (List.replicate (n - ds.length) '0' ++ ds)

def blanked (value : Nat) : String :=
  if value < 10 then " " ++ decimal value else decimal value

variable (m : Moment)

def yearText (year : Int) : String := String.ofList (Json.integer year)

def hour12 : Nat := if m.hour % 12 = 0 then 12 else m.hour % 12

def yearLength (year : Int) : Nat := (daysTo (year + 1) 1 1 - daysTo year 1 1).toNat

/-- The year and number of the week, weeks beginning on Monday and the first one holding a
Thursday. -/
def isoWeek : Int × Nat :=
  let monday := (m.weekday + 6) % 7
  let week := (m.yearday + 10 - monday) / 7
  if week < 1 then
    let length := yearLength (m.year - 1)
    (m.year - 1, (m.yearday + length + 10 - monday) / 7)
  else if week = 53 ∧ (daysTo m.year 12 31 + 3).fmod 7 < 3 then (m.year + 1, 1)
  else (m.year, week)

def clock : String :=
  padded 2 m.hour ++ ":" ++ padded 2 m.minute ++ ":" ++ padded 2 m.second

def shortDate : String :=
  padded 2 m.month ++ "/" ++ padded 2 m.day ++ "/" ++ padded 2 (m.year.fmod 100).toNat

def part? (letter : Char) : Option String :=
  let weekday := weekdays.getD m.weekday ""
  let month := months.getD (m.month - 1) ""
  match letter with
  | 'a' => some (String.ofList (weekday.toList.take 3))
  | 'A' => some weekday
  | 'b' | 'h' => some (String.ofList (month.toList.take 3))
  | 'B' => some month
  | 'c' =>
    some (String.ofList (weekday.toList.take 3) ++ " " ++ String.ofList (month.toList.take 3) ++
      " " ++ blanked m.day ++ " " ++ m.clock ++ " " ++ yearText m.year)
  | 'C' => some (padded 2 (m.year.fdiv 100).toNat)
  | 'd' => some (padded 2 m.day)
  | 'D' | 'x' => some m.shortDate
  | 'e' => some (blanked m.day)
  | 'F' => some (yearText m.year ++ "-" ++ padded 2 m.month ++ "-" ++ padded 2 m.day)
  | 'g' => some (padded 2 (m.isoWeek.1.fmod 100).toNat)
  | 'G' => some (yearText m.isoWeek.1)
  | 'H' => some (padded 2 m.hour)
  | 'I' => some (padded 2 m.hour12)
  | 'j' => some (padded 3 (m.yearday + 1))
  | 'm' => some (padded 2 m.month)
  | 'M' => some (padded 2 m.minute)
  | 'n' => some "\n"
  | 'p' => some (if m.hour < 12 then "AM" else "PM")
  | 'r' =>
    some (padded 2 m.hour12 ++ ":" ++ padded 2 m.minute ++ ":" ++ padded 2 m.second ++ " " ++
      (if m.hour < 12 then "AM" else "PM"))
  | 'R' => some (padded 2 m.hour ++ ":" ++ padded 2 m.minute)
  | 'S' => some (padded 2 m.second)
  | 't' => some "\t"
  | 'T' | 'X' => some m.clock
  | 'u' => some (decimal (if m.weekday = 0 then 7 else m.weekday))
  | 'U' => some (padded 2 ((m.yearday + 7 - m.weekday) / 7))
  | 'V' => some (padded 2 m.isoWeek.2)
  | 'w' => some (decimal m.weekday)
  | 'W' => some (padded 2 ((m.yearday + 7 - (m.weekday + 6) % 7) / 7))
  | 'y' => some (padded 2 (m.year.fmod 100).toNat)
  | 'Y' => some (yearText m.year)
  | 'z' => some "+0000"
  | 'Z' => some "UTC"
  | '%' => some "%"
  | _ => none

/-- The letters that may follow a mark for another way of writing. -/
def alternatives : List (Char × String) :=
  [('E', "cCxXyY"), ('O', "deHImMSuUVwWy")]

/-- The text of a date format; the result is the directive that is not known, if there is one. -/
def format : Bytes → Except Bytes Bytes
  | [] => .ok []
  | 37 :: mark :: rest =>
    match alternatives.find? fun e => e.1.toNat == mark.toNat with
    | some (_, letters) =>
      match rest with
      | letter :: rest =>
        let letter := Char.ofNat letter.toNat
        if letters.toList.contains letter then do
          let s := Bytes.ofString ((m.part? letter).getD "")
          return s ++ (← format rest)
        else .error (37 :: mark :: Bytes.ofChars [letter])
      | [] => .error [37, mark]
    | none =>
      match m.part? (Char.ofNat mark.toNat) with
      | some s => (format rest).map (Bytes.ofString s ++ ·)
      | none => .error [37, mark]
  | [37] => .error [37]
  | b :: rest => (format rest).map (b :: ·)

end Moment

namespace Library

variable (c : Invocation)

/-- A field of a date as an integer, counted from `delta`; absent ones have a default or are
missed. -/
def dateField (t : TableId) (name : String) (default : Option Int) (delta : Int) : Act Int := do
  let v ← Act.index (.table t) (.ofString name) none none
  match v.toInt? with
  | some i =>
    let bound : Int := Nat.pow 2 31
    let fits := if 0 ≤ i then i.toInt - delta < bound else -bound + delta ≤ i.toInt
    if fits then return i.toInt - delta
    else c.fail ("field '" ++ name ++ "' is out-of-bound")
  | none =>
    if !v.isNil then c.fail ("field '" ++ name ++ "' is not an integer")
    match default with
    | some d => return d
    | none => c.fail ("field '" ++ name ++ "' missing in date table")

def dateFields (m : Moment) : List (String × Value) :=
  [("year", .int (Int64.ofInt m.year)), ("month", .ofNat m.month), ("day", .ofNat m.day),
    ("hour", .ofNat m.hour), ("min", .ofNat m.minute), ("sec", .ofNat m.second),
    ("yday", .ofNat (m.yearday + 1)), ("wday", .ofNat (m.weekday + 1)), ("isdst", .bool false)]

def setFields (t : TableId) : List (String × Value) → Act Unit
  | [] => return ()
  | (name, v) :: rest => do
    Act.setIndex (.table t) (.ofString name) v none none
    setFields t rest

/-- The present time, or that of a date, whose fields are brought into their ranges. -/
def time : Act (List Value) := do
  if (c.value 1).isNil then return [.int (Int64.ofInt (← Act.look (·.now)))]
  let t ← c.table 1
  let year ← dateField c t "year" none 1900
  let month ← dateField c t "month" none 1
  let day ← dateField c t "day" none 0
  let hour ← dateField c t "hour" (some 12) 0
  let minute ← dateField c t "min" (some 0) 0
  let second ← dateField c t "sec" (some 0) 0
  let seconds := Moment.secondsTo (year + 1900) (month + 1) day hour minute second
  setFields t (dateFields (Moment.ofSeconds seconds))
  if seconds = -1 then
    c.fail "time result cannot be represented in this installation"
  return [.int (Int64.ofInt seconds)]

def date : Act (List Value) := do
  let pattern ← c.textOr 1 (Bytes.ofString "%c")
  let seconds ← if (c.value 2).isNil then Act.look (·.now) else Int64.toInt <$> c.int 2
  let m := Moment.ofSeconds seconds
  let pattern := match pattern with
    | 33 :: rest => rest
    | pattern => pattern
  if (Bytes.ofString "*t").isPrefixOf pattern then
    return [← Act.newTable ((dateFields m).foldl (fun t e => t.setField e.1 e.2) {})]
  match m.format pattern with
  | .ok s => return [.str s]
  | .error directive =>
    c.argumentFault 1 (Bytes.ofString "invalid conversion specifier '" ++ directive ++
      Bytes.ofString "'")

def timeFunction (f : TimeFunction) : Act (List Value) := do
  match f with
  | .clock => return [.float 0.0]
  | .date => date c
  | .difftime =>
    let later ← c.int 1
    let earlier ← c.int 2
    return [.float (Number.ofInt (later.toInt - earlier.toInt))]
  | .time => time c

end Library

end Hypermedia.Script
