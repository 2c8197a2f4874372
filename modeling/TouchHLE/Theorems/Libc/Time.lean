import Mathlib.Tactic.IntervalCases
import TouchHLE.Libc.Time
import TouchHLE.Spec.Calendar

/-! # Timestamps and calendar dates

Both conversions are compared with the number of a date. The tables hold the first days of the years of a cycle and of the
months of a year. -/

namespace TouchHLE.Libc.Time
open Lib Spec.Calendar List

variable (year : Int)

theorem isLeapYear_eq : isLeapYear year = decide (IsLeap year) := by
  have hmod : ∀ k, year.tmod k = 0 ↔ year % k = 0 := by
    intro k
    rw [← Int.dvd_iff_tmod_eq_zero, Int.dvd_iff_emod_eq_zero]
  rw [Bool.eq_iff_iff, decide_eq_true_iff]
  simp [isLeapYear, IsLeap, hmod]

theorem yearDays_eq : (if isLeapYear year then 366 else 365) = yearLength year := by
  simp [isLeapYear_eq, yearLength]

theorem yearLength_cycle (year cycles : Int) : yearLength (year + 400 * cycles) = yearLength year := by
  unfold yearLength IsLeap
  split_ifs <;> omega

theorem yearStart_cycle (year cycles : Int) : yearStart (year + 400 * cycles) = yearStart year + 146097 * cycles := by
  unfold yearStart
  omega

def cycleStart (year : Nat) : Int := yearStart (2000 + year) - 10957

theorem cycleStart_succ (year : Nat) : cycleStart (year + 1) = cycleStart year + yearLength year := by
  have hln := yearLength_cycle year 5
  have hscc := yearStart_succ (2000 + year)
  rw [show (year : Int) + 400 * 5 = 2000 + year by omega] at hln
  simp only [cycleStart, Nat.cast_add, Nat.cast_one, ← add_assoc, hscc]
  omega

theorem cycleStart_lt (y y' : Nat) (h : y < y') : cycleStart y < cycleStart y' := by
  have := yearStart_lt (show 2000 + (y : Int) < 2000 + y' by omega)
  unfold cycleStart
  omega

theorem calcYearToDay_eq (years : Nat) : calcYearToDay years = ((List.range years).map cycleStart, cycleStart years) := by
  unfold calcYearToDay
  induction years with
  | zero => rfl
  | succ years ih =>
    rw [range_succ, foldl_append, ih, map_append, cycleStart_succ, ← yearDays_eq]
    rfl

theorem yearToDay_eq : yearToDay = (List.range 400).map cycleStart := by
  rw [yearToDay, calcYearToDay_eq]
  rfl

theorem cycleDays_eq : cycleDays = 146097 := by
  rw [cycleDays, calcYearToDay_eq]
  rfl

def monthFirst (month : Nat) : Int := monthStart year (month + 1)

theorem monthFirst_succ (month : Nat) :
    monthFirst year (month + 1) = monthFirst year month + monthLength year (month + 1) := by
  have hscc := monthStart_succ year (show 1 ≤ (month : Int) + 1 by omega)
  simpa only [monthFirst, Nat.cast_add, Nat.cast_one] using hscc

theorem monthFirst_lt (month month' : Nat) (h : month < month') : monthFirst year month < monthFirst year month' := by
  have hmn : StrictMono (monthFirst year) := by
    refine strictMono_nat_of_lt_succ fun month => ?_
    have hln := monthLength_range year (month + 1)
    rw [monthFirst_succ]
    omega
  exact hmn h

theorem monthDays_eq {month : Nat} (h : month < 12) :
    daysInMonth.getD month 0 + (if isLeapYear year && month == 1 then 1 else 0) = monthLength year (month + 1) := by
  rw [isLeapYear_eq, monthLength]
  by_cases hlep : IsLeap year
  · interval_cases month <;> simp [daysInMonth, hlep]
  · interval_cases month <;> simp [daysInMonth, hlep]

/-- The assertion allows one day more in each month of a leap year. -/
theorem monthDays_le {month : Nat} (h : month < 12) :
    monthLength year (month + 1) ≤ daysInMonth.getD month 0 + (if isLeapYear year then 1 else 0) := by
  rw [← monthDays_eq year h]
  cases isLeapYear year with
  | false => simp
  | true =>
    rw [Bool.true_and, if_pos rfl]
    split_ifs <;> omega

theorem monthToDay_eq : monthToDay (isLeapYear year) = (List.range 12).map (monthFirst year) := by
  have hbt : monthToDay (isLeapYear year) = calcMonthToDay (isLeapYear year) := by
    cases isLeapYear year <;> rfl
  have hloo : ∀ n ≤ 12, (List.range n).foldl (fun x month => (x.1 ++ [x.2], x.2 + (daysInMonth.getD month 0 +
        if isLeapYear year && month == 1 then 1 else 0))) ([], (0 : Int)) =
          ((List.range n).map (monthFirst year), monthFirst year n) := by
    intro n hn
    induction n with
    | zero => rfl
    | succ n ih =>
      rw [range_succ, foldl_append, ih (by omega), map_append, monthFirst_succ, ← monthDays_eq year (by omega)]
      rfl
  rw [hbt]
  exact congrArg Prod.fst (hloo 12 (Nat.le_refl 12))

theorem index_map_range {f} {n i : Nat} (h : i < n) : index ((List.range n).map f) i = .ok (f i) := by
  have hnn : ¬(i : Int) < 0 := by omega
  simp [index, hnn, h]

theorem indexTryFrom_map_range {f} {n i : Nat} (h : i < n) :
    indexTryFrom ((List.range n).map f) i = .ok (f i) := by
  rw [indexTryFrom, if_neg (by omega), index_map_range h]

/-! ### From a timestamp to a date -/

def tmOf (d : Date) (second : Int) : Tm where
  tmSec := second % 60
  tmMin := second % 3600 / 60
  tmHour := second / 3600
  tmMday := d.day
  tmMon := d.month - 1
  tmYear := d.year - 1900
  tmWday := weekday d.number
  tmYday := d.inYear
  tmIsdst := 0
  tmGmtoff := 0
  tmZone := 0

theorem exists_month {day : Int} (hlow : 0 ≤ day) (hhg : day < yearLength year) :
    ∃ month < 12, monthFirst year month ≤ day ∧ day < monthFirst year (month + 1) := by
  refine exists_between hlow ?_
  have hend : monthFirst year 12 = yearLength year := monthStart_end year
  rw [hend]
  exact hhg

theorem timestampToCalendarDate_eq (t : Int) :
    ∃ d, d.number = t / 86400 ∧ timestampToCalendarDate t = .ok (tmOf d (t % 86400)) := by
  obtain ⟨cycles, dayInCycle, hcye, hdyn⟩ : ∃ cycles dayInCycle, (t / 86400 - 10957) / 146097 = cycles ∧
      (t / 86400 - 10957) % 146097 = dayInCycle := ⟨_, _, rfl, rfl⟩
  have hend : cycleStart 400 = 146097 := rfl
  obtain ⟨y, hy, hlow, hhg⟩ := exists_between (n := 400) (show cycleStart 0 ≤ dayInCycle from by
    have : cycleStart 0 = 0 := rfl
    omega) (by omega)
  have hyr := cycleStart_succ y
  have hpnt : partitionPoint (fun day => decide (day ≤ dayInCycle)) yearToDay = y + 1 := by
    rw [yearToDay_eq]
    exact partitionPoint_range cycleStart_lt hy hlow hhg
  -- the year of the cycle is a leap year if the year is
  obtain ⟨year, hyrq⟩ : ∃ year, year = 2000 + cycles * 400 + y := ⟨_, rfl⟩
  have hln : yearLength year = yearLength y := by
    have hcyc := yearLength_cycle y (5 + cycles)
    rwa [show (y : Int) + 400 * (5 + cycles) = year by omega] at hcyc
  have hlep : isLeapYear y = isLeapYear year := by
    rw [isLeapYear_eq, isLeapYear_eq, decide_eq_decide, IsLeap, IsLeap]
    omega
  obtain ⟨m, hm, hmlw, hmhg⟩ := exists_month year (show 0 ≤ dayInCycle - cycleStart y by omega) (by omega)
  have hmh := monthFirst_succ year m
  have hmpn : partitionPoint (fun day => decide (day ≤ dayInCycle - cycleStart y)) (monthToDay (isLeapYear year)) =
      m + 1 := by
    rw [monthToDay_eq]
    exact partitionPoint_range (monthFirst_lt year) hm hmlw hmhg
  have hfs : indexTryFrom yearToDay y = .ok (cycleStart y) := by
    rw [yearToDay_eq]
    exact indexTryFrom_map_range hy
  have hmfr : indexTryFrom (monthToDay (isLeapYear year)) m = .ok (monthFirst year m) := by
    rw [monthToDay_eq]
    exact indexTryFrom_map_range hm
  have hdys : index daysInMonth m = .ok (daysInMonth.getD m 0) := by interval_cases m <;> rfl
  -- the assertions
  have hiny : dayInCycle - cycleStart y < 365 + (if isLeapYear year then 1 else 0) := by
    have hdys := yearDays_eq year
    split_ifs at hdys ⊢ <;> omega
  have hinm : dayInCycle - cycleStart y - monthFirst year m <
      daysInMonth.getD m 0 + (if isLeapYear year then 1 else 0) := by
    have hdys := monthDays_le year hm
    omega
  obtain ⟨d, hdyr, hdmn, hddy⟩ : ∃ d : Date, d.year = year ∧ d.month = m + 1 ∧
      d.day = dayInCycle - cycleStart y - monthFirst year m + 1 :=
    ⟨⟨year, m + 1, dayInCycle - cycleStart y - monthFirst year m + 1, by omega, by omega⟩, rfl, rfl, rfl⟩
  have hiny' : d.inYear = dayInCycle - cycleStart y := by
    rw [Date.inYear, hdyr, hdmn, hddy, ← monthFirst]
    omega
  have hnb : d.number = t / 86400 := by
    have hsr := yearStart_cycle (2000 + y) cycles
    rw [show 2000 + (y : Int) + 400 * cycles = year by omega] at hsr
    have hsp : d.number = yearStart year + d.inYear := by
      rw [Date.number, Date.inYear, hdyr]
      omega
    rw [hsp, hiny', hsr, cycleStart]
    omega
  refine ⟨d, hnb, ?_⟩
  have hday : daySeconds = 86400 := rfl
  have hhou : hourSeconds = 3600 := rfl
  have hmnt : minuteSeconds = 60 := rfl
  have hyrn : ((y + 1 : Nat) : Int) - 1 = y := by omega
  have hmot : ((m + 1 : Nat) : Int) - 1 = m := by omega
  have hsec : 0 ≤ t % 86400 := by omega
  have hcyl : ((cycleYears : Nat) : Int) = 400 := rfl
  unfold timestampToCalendarDate
  simp only [hday, hhou, hmnt, cycleDays_eq, hcye, hdyn, hpnt, hyrn, hfs, ok_bind, hlep, hiny,
    not_true, if_false, hmpn, hmot, hmfr, hdys, hinm, hcyl, ← hyrq]
  rw [Int.tmod_eq_emod_of_nonneg hsec, Int.tmod_eq_emod_of_nonneg hsec, Int.tdiv_eq_ediv_of_nonneg hsec,
    Int.tdiv_eq_ediv_of_nonneg (by omega), tmOf, hnb, hiny', hdyr, hdmn, hddy, weekday, Int.add_sub_cancel]

theorem daysInYears_eq {first last : Int} (h : first ≤ last) : daysInYears first last = yearStart last - yearStart first := by
  obtain ⟨n, rfl⟩ : ∃ n : Nat, last = first + n := ⟨(last - first).toNat, by omega⟩
  have hrn : (first + (n : Int) - first).toNat = n := by omega
  rw [daysInYears, hrn]
  clear h hrn
  induction n with
  | zero => simp
  | succ n ih =>
    rw [range_succ, foldl_append, ih, foldl_cons, foldl_nil, yearDays_eq, Nat.cast_succ, ← add_assoc, yearStart_succ]
    omega

theorem daysInYears_of_le {first last : Int} (h : last ≤ first) : daysInYears first last = 0 := by
  have hrn : (last - first).toNat = 0 := by omega
  rw [daysInYears, hrn]
  rfl

/-- The timestamp of a broken-down time whose fields may be out of range: months are carried into years, and days, hours,
    minutes and seconds are added. -/
def Tm.normalised (tm : Tm) : Int :=
  let year := tm.tmYear + 1900 + tm.tmMon / 12
  (yearStart year + monthStart year (tm.tmMon % 12 + 1) + (tm.tmMday - 1)) * 86400 + tm.tmHour * 3600 + tm.tmMin * 60 + tm.tmSec

theorem calendarDateToTimestamp_of_month {tm : Tm} (hmon : 0 ≤ tm.tmMon ∧ tm.tmMon < 12)
    (hfie : ∀ x ∈ [tm.tmSec, tm.tmMin, tm.tmHour, tm.tmMday], -2 ^ 31 ≤ x ∧ x < 2 ^ 31)
    (hrn : -2 ^ 31 ≤ tm.normalised ∧ tm.normalised < 2 ^ 31) : calendarDateToTimestamp tm = .ok tm.normalised := by
  obtain ⟨m, hm⟩ : ∃ m : Nat, tm.tmMon = m := ⟨tm.tmMon.toNat, by omega⟩
  obtain ⟨year, heq⟩ : ∃ year, year = tm.tmYear + 1900 := ⟨_, rfl⟩
  have hcml : index (monthToDay (isLeapYear year)) m = .ok (monthFirst year m) := by
    rw [monthToDay_eq]
    exact index_map_range (by omega)
  have hnrm : tm.normalised = (yearStart year + monthFirst year m + (tm.tmMday - 1)) * 86400 +
      tm.tmHour * 3600 + tm.tmMin * 60 + tm.tmSec := by
    have hzr : (m : Int) / 12 = 0 := by omega
    have hmod : (m : Int) % 12 = m := by omega
    rw [Tm.normalised, hm, hzr, hmod, Int.add_zero, ← heq, monthFirst]
  have hwp : (tm.tmYear + 1900).bmod (2 ^ 32) = year := by
    have hlow := monthStart_mono year (Int.le_refl 1) (show 1 ≤ (m : Int) + 1 by omega)
    have hhg := monthStart_mono year (by omega) (show (m : Int) + 1 ≤ 13 by omega)
    have hln : yearLength year ≤ 366 := by
      unfold yearLength
      split_ifs <;> omega
    rw [monthStart_one] at hlow
    rw [monthStart_end] at hhg
    simp only [forall_mem_cons] at hfie
    have hyr : -2 ^ 31 ≤ year ∧ year < 2 ^ 31 := by
      unfold yearStart monthFirst at hnrm
      omega
    rw [← heq]
    exact Int.bmod_eq_of_le (by omega) (by omega)
  have hepc : yearStart 1970 = 0 := rfl
  have hseo : (if year < 1970 then
      daysInYears 1970 year * 86400 + monthFirst year m * 86400 + (tm.tmMday - 1) * 86400 + tm.tmHour * 3600 +
        tm.tmMin * 60 + tm.tmSec - daysInYears year 1970 * 86400
      else daysInYears 1970 year * 86400 + monthFirst year m * 86400 + (tm.tmMday - 1) * 86400 + tm.tmHour * 3600 +
        tm.tmMin * 60 + tm.tmSec) = tm.normalised := by
    by_cases hbe : year < 1970
    · rw [if_pos hbe, daysInYears_of_le (Int.le_of_lt hbe), daysInYears_eq (Int.le_of_lt hbe)]
      omega
    · rw [if_neg hbe, daysInYears_eq (Int.not_lt.mp hbe)]
      omega
  unfold calendarDateToTimestamp
  simp only [hwp, hm, hcml, ok_bind]
  rw [hseo, if_pos hrn]

theorem normalised_tmOf (d : Date) (second : Int) : (tmOf d second).normalised = d.number * 86400 + second := by
  have hmh := d.month_range
  have hzr : (d.month - 1) / 12 = 0 := by omega
  have hmod : (d.month - 1) % 12 + 1 = d.month := by omega
  simp only [Tm.normalised, tmOf, hzr, hmod, Int.sub_add_cancel, Int.add_zero, Date.number]
  omega

def Tm.Fields (tm : Tm) : Prop :=
  ∀ x ∈ [tm.tmSec, tm.tmMin, tm.tmHour, tm.tmMday, tm.tmMon, tm.tmYear], -2 ^ 31 ≤ x ∧ x < 2 ^ 31

/-- A broken-down time is converted to its timestamp exactly if its month is one of a year. A month that is not is looked up
    in the table all the same. -/
theorem calendarDateToTimestamp_iff (tm : Tm) (hfields : tm.Fields)
    (hrange : -2 ^ 31 ≤ tm.normalised ∧ tm.normalised < 2 ^ 31) :
    calendarDateToTimestamp tm = .ok tm.normalised ↔ 0 ≤ tm.tmMon ∧ tm.tmMon < 12 := by
  constructor
  · intro h
    obtain ⟨days, hdays, -⟩ := bind_eq_ok.mp h
    unfold index at hdays
    split at hdays
    · cases hdays
    split at hdays
    · cases hdays
    rename_i hnonneg _ hget
    have hlt := (List.getElem?_eq_some_iff.mp hget).1
    rw [monthToDay_eq, length_map, length_range] at hlt
    omega
  · intro hmon
    refine calendarDateToTimestamp_of_month hmon (fun x hx => hfields x ?_) hrange
    exact mem_append_left [tm.tmMon, tm.tmYear] hx

/-- The first of March 1970, counted as day 60. -/
theorem calendarDateToTimestamp_iff_day : calendarDateToTimestamp ⟨0, 0, 0, 60, 0, 70, 0, 0, 0, 0, 0⟩ = .ok 5097600 := by
  refine (calendarDateToTimestamp_iff ⟨0, 0, 0, 60, 0, 70, 0, 0, 0, 0, 0⟩ ?_ (by decide)).mpr (by decide)
  simp [Tm.Fields]

/-- The thirteenth month of 1970 is January 1971, and stops the emulator. -/
theorem calendarDateToTimestamp_month :
    (⟨0, 0, 0, 1, 12, 70, 0, 0, 0, 0, 0⟩ : Tm).Fields ∧ (⟨0, 0, 0, 1, 12, 70, 0, 0, 0, 0, 0⟩ : Tm).normalised = 31536000 ∧
      calendarDateToTimestamp ⟨0, 0, 0, 1, 12, 70, 0, 0, 0, 0, 0⟩ = .error .indexOutOfBounds := by
  refine ⟨?_, rfl, by decide⟩
  simp [Tm.Fields]

structure BrokenDown (t : Int) (tm : Tm) : Prop where
  date : (dateOf (t / 86400)).year = tm.tmYear + 1900 ∧ (dateOf (t / 86400)).month = tm.tmMon + 1 ∧
    (dateOf (t / 86400)).day = tm.tmMday
  time : tm.tmHour * 3600 + tm.tmMin * 60 + tm.tmSec = t % 86400
  second : 0 ≤ tm.tmSec ∧ tm.tmSec < 60
  minute : 0 ≤ tm.tmMin ∧ tm.tmMin < 60
  hour : 0 ≤ tm.tmHour ∧ tm.tmHour < 24
  month : 0 ≤ tm.tmMon ∧ tm.tmMon < 12
  dayOfMonth : 1 ≤ tm.tmMday ∧ tm.tmMday ≤ monthLength (tm.tmYear + 1900) (tm.tmMon + 1)
  dayOfYear : tm.tmYday = monthStart (tm.tmYear + 1900) (tm.tmMon + 1) + (tm.tmMday - 1) ∧
    0 ≤ tm.tmYday ∧ tm.tmYday < yearLength (tm.tmYear + 1900)
  dayOfWeek : tm.tmWday = weekday (t / 86400)
  utc : tm.tmIsdst = 0 ∧ tm.tmGmtoff = 0

theorem brokenDown_tmOf {t : Int} {d} (h : d.number = t / 86400) : BrokenDown t (tmOf d (t % 86400)) := by
  have hdae : dateOf (t / 86400) = d := by
    rw [← h]
    exact dateOf_number d
  have hmh := d.month_range
  have hiny := d.inYear_range
  have hyr : d.year - 1900 + 1900 = d.year := Int.sub_add_cancel _ _
  have hmon : d.month - 1 + 1 = d.month := Int.sub_add_cancel _ _
  constructor
  case date =>
    rw [hdae]
    exact ⟨hyr.symm, hmon.symm, rfl⟩
  case dayOfMonth =>
    simp only [tmOf, hyr, hmon]
    exact d.day_range
  case dayOfYear =>
    simp only [tmOf, hyr, hmon]
    exact ⟨rfl, hiny⟩
  case dayOfWeek => rw [← h]; rfl
  case utc => exact ⟨rfl, rfl⟩
  all_goals
    simp only [tmOf]
    omega

/-- For every timestamp, the conversion to a date passes its assertions and gives the date and the time of day in UTC; the
    next day is a day further in the week; and the conversion back gives the timestamp. -/
theorem timestamp_round_trip (t : Int) (hlow : -2 ^ 31 ≤ t) (hhigh : t < 2 ^ 31) :
    ∃ tm, timestampToCalendarDate t = .ok tm ∧ BrokenDown t tm ∧ calendarDateToTimestamp tm = .ok t ∧
      ∀ t', -2 ^ 31 ≤ t' → t' < 2 ^ 31 → t' / 86400 = t / 86400 + 1 →
        ∃ tm', timestampToCalendarDate t' = .ok tm' ∧ tm'.tmWday = (tm.tmWday + 1) % 7 := by
  obtain ⟨d, hnumber, hconvert⟩ := timestampToCalendarDate_eq t
  have hsplit : d.number * 86400 + t % 86400 = t := by omega
  refine ⟨_, hconvert, brokenDown_tmOf hnumber, ?_, ?_⟩
  · have hnormalised : (tmOf d (t % 86400)).normalised = t := (normalised_tmOf d _).trans hsplit
    have hday := d.day_range
    have hmonth := d.month_range
    have hlength := monthLength_range d.year d.month
    rw [calendarDateToTimestamp_of_month, hnormalised]
    · simp only [tmOf]
      omega
    · simp [tmOf]
      omega
    · omega
  · intro t' _ _ hday
    obtain ⟨d', hnumber', hconvert'⟩ := timestampToCalendarDate_eq t'
    refine ⟨_, hconvert', ?_⟩
    simp only [tmOf, weekday]
    omega

/-- The second before 1970 is in December 1969. -/
theorem timestamp_round_trip_before : ∃ tm, timestampToCalendarDate (-1) = .ok tm ∧ BrokenDown (-1) tm ∧
    calendarDateToTimestamp tm = .ok (-1) ∧ tm.tmYear = 69 ∧ tm.tmMon = 11 ∧ tm.tmMday = 31 := by
  obtain ⟨tm, hconvert, hbroken, hback, -⟩ := timestamp_round_trip (-1) (by omega) (by omega)
  obtain ⟨hyear, hmonth, hday⟩ := hbroken.date
  have hyear' : (dateOf (-1 / 86400)).year = 1969 := rfl
  have hmonth' : (dateOf (-1 / 86400)).month = 12 := rfl
  have hday' : (dateOf (-1 / 86400)).day = 31 := rfl
  exact ⟨tm, hconvert, hbroken, hback, by omega, by omega, by omega⟩

/-- Every time of every date that has a timestamp is found again from its timestamp. -/
theorem calendar_date_round_trip (d : Date) (second : Int) (hsec : 0 ≤ second ∧ second < 86400)
    (hrange : -2 ^ 31 ≤ d.number * 86400 + second ∧ d.number * 86400 + second < 2 ^ 31) :
    ∃ t, calendarDateToTimestamp (tmOf d second) = .ok t ∧ timestampToCalendarDate t = .ok (tmOf d second) := by
  refine ⟨_, calendarDateToTimestamp_of_month ?_ ?_ ?_, ?_⟩
  · have hmonth := d.month_range
    simp only [tmOf]
    omega
  · have hday := d.day_range
    have hlen := monthLength_range d.year d.month
    simp [tmOf]
    omega
  · rwa [normalised_tmOf]
  · rw [normalised_tmOf]
    obtain ⟨d', hnum, hcv⟩ := timestampToCalendarDate_eq (d.number * 86400 + second)
    obtain rfl : d' = d := Date.number_injective (by omega)
    have hmod : (d'.number * 86400 + second) % 86400 = second := by omega
    rw [hcv, hmod]

/-- The leap day of 2000. -/
theorem calendar_date_round_trip_leap : ∃ d t, d.day = 29 ∧ calendarDateToTimestamp (tmOf d 0) = .ok t ∧
    timestampToCalendarDate t = .ok (tmOf d 0) := by
  obtain ⟨t, ht⟩ := calendar_date_round_trip ⟨2000, 2, 29, by decide, by decide⟩ 0 (by decide) (by decide)
  exact ⟨_, t, rfl, ht⟩

end TouchHLE.Libc.Time
