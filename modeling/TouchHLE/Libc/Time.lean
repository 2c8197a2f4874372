import TouchHLE.Lib.Bisect
import TouchHLE.Lib.Outcome

/-! Timestamps and calendar dates: the conversions of `touchHLE/src/libc/time.rs`. An `i32` is an integer; only the year of a
    date that the guest made up can leave the range of its type, and wraps. -/

namespace TouchHLE.Libc.Time
open Lib

inductive Panic where
  | assertion
  /-- `usize::try_from(..).unwrap()` and `seconds.try_into().unwrap()` -/
  | tryInto
  | indexOutOfBounds
deriving DecidableEq

/-- `struct tm`. Fields count from 0 unless marked otherwise. -/
structure Tm where
  tmSec : Int
  tmMin : Int
  tmHour : Int
  tmMday : Int
  tmMon : Int
  /-- With 1900 subtracted from it. -/
  tmYear : Int
  tmWday : Int
  tmYday : Int
  tmIsdst : Int
  tmGmtoff : Int
  tmZone : Nat
deriving DecidableEq

def isLeapYear (year : Int) : Bool := year.tmod 4 = 0 ∧ (year.tmod 100 ≠ 0 ∨ year.tmod 400 = 0)

def cycleYears : Nat := 400

def calcYearToDay (years : Nat) : List Int × Int := (List.range years).foldl
    (fun (table, day) (year : Nat) => (table ++ [day], day + if isLeapYear year then 366 else 365)) ([], 0)

def yearToDay : List Int := (calcYearToDay cycleYears).1

def cycleDays : Int := (calcYearToDay cycleYears).2

def daysInMonth : List Int := [31, 28, 31, 30, 31, 30, 31, 31, 30, 31, 30, 31]

def calcMonthToDay (leapYear : Bool) : List Int := ((List.range 12).foldl (fun (table, day) (month : Nat) =>
      (table ++ [day], day + (daysInMonth.getD month 0 + if leapYear && month == 1 then 1 else 0))) ([], (0 : Int))).1

def monthToDay (leapYear : Bool) : List Int := if leapYear then calcMonthToDay true else calcMonthToDay false

/-- `table[index as usize]`: a negative index is out of bounds. -/
def index (table : List Int) (i : Int) : Except Panic Int :=
  if i < 0 then .error .indexOutOfBounds
  else
    match table[i.toNat]? with
    | none => .error .indexOutOfBounds
    | some x => .ok x

/-- `table[usize::try_from(index).unwrap()]` -/
def indexTryFrom (table : List Int) (i : Int) : Except Panic Int :=
  if i < 0 then .error .tryInto else index table i

def minuteSeconds : Int := 60

def hourSeconds : Int := minuteSeconds * 60

def daySeconds : Int := hourSeconds * 24

def timestampToCalendarDate (timestamp : Int) : Except Panic Tm := do
  let daysSinceUnixEpoch := timestamp / daySeconds
  let secondInDay := timestamp % daySeconds
  let tmSec := secondInDay.tmod minuteSeconds
  let tmMin := (secondInDay.tmod hourSeconds).tdiv minuteSeconds
  let tmHour := secondInDay.tdiv hourSeconds
  -- the pattern of leap years starts again in the year 2000
  let daysSinceY2k := daysSinceUnixEpoch - 10957
  let cyclesSinceY2k := daysSinceY2k / cycleDays
  let dayInCycle := daysSinceY2k % cycleDays
  let yearInCycle := (partitionPoint (fun day => decide (day ≤ dayInCycle)) yearToDay : Int) - 1
  let year := 2000 + cyclesSinceY2k * cycleYears + yearInCycle
  let firstDay ← indexTryFrom yearToDay yearInCycle
  let dayInYear := dayInCycle - firstDay
  let leapYear := isLeapYear yearInCycle
  if ¬dayInYear < 365 + (if leapYear then 1 else 0) then .error .assertion
  else
    let monthInYear := (partitionPoint (fun day => decide (day ≤ dayInYear)) (monthToDay leapYear) : Int) - 1
    let firstDay ← indexTryFrom (monthToDay leapYear) monthInYear
    let dayInMonth := dayInYear - firstDay
    let length ← index daysInMonth monthInYear
    if ¬dayInMonth < length + (if leapYear then 1 else 0) then .error .assertion
    else
      -- 0 is Sunday, and 1970-01-01 was a Thursday
      let dayOfTheWeek := (4 + daysSinceUnixEpoch) % 7
      .ok {
        tmSec, tmMin, tmHour
        tmMday := dayInMonth + 1
        tmMon := monthInYear
        tmYear := year - 1900
        tmWday := dayOfTheWeek
        tmYday := dayInYear
        tmIsdst := 0
        tmGmtoff := 0
        tmZone := 0 }

def daysInYears (first last : Int) : Int :=
  (List.range (last - first).toNat).foldl (fun days (i : Nat) => days + if isLeapYear (first + i) then 366 else 365) 0

def calendarDateToTimestamp (tm : Tm) : Except Panic Int := do
  let year := (tm.tmYear + 1900).bmod (2 ^ 32)
  let daysInMonthsCumul ← index (monthToDay (isLeapYear year)) tm.tmMon
  let seconds := daysInYears 1970 year * 86400 + daysInMonthsCumul * 86400 + (tm.tmMday - 1) * 86400 +
    tm.tmHour * 3600 + tm.tmMin * 60 + tm.tmSec
  -- dates before 1970
  let seconds := if year < 1970 then seconds - daysInYears year 1970 * 86400 else seconds
  if -2 ^ 31 ≤ seconds ∧ seconds < 2 ^ 31 then .ok seconds else .error .tryInto

end TouchHLE.Libc.Time
