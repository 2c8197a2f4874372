import Mathlib.Algebra.Order.Ring.Int
import Mathlib.Order.Monotone.Basic

/-! The proleptic Gregorian calendar. A date is followed by the next one, and days are counted from the first of January
    1970 in both directions. -/

namespace TouchHLE.Spec.Calendar

def IsLeap (year : Int) : Prop := year % 4 = 0 ∧ (year % 100 ≠ 0 ∨ year % 400 = 0)

instance (year : Int) : Decidable (IsLeap year) := inferInstanceAs (Decidable (_ ∧ _))

variable (year : Int)

def yearLength : Int := if IsLeap year then 366 else 365

def monthLength (year month : Int) : Int :=
  if month = 2 then if IsLeap year then 29 else 28
  else if month = 4 ∨ month = 6 ∨ month = 9 ∨ month = 11 then 30 else 31

theorem monthLength_range (year month : Int) : 28 ≤ monthLength year month ∧ monthLength year month ≤ 31 := by
  unfold monthLength
  split_ifs <;> omega

@[ext]
structure Date where
  year : Int
  month : Int
  day : Int
  month_range : 1 ≤ month ∧ month ≤ 12
  day_range : 1 ≤ day ∧ day ≤ monthLength year month

namespace Date

def epoch : Date := ⟨1970, 1, 1, by omega, by decide⟩

def next (d : Date) : Date :=
  if hday : d.day < monthLength d.year d.month then
    ⟨d.year, d.month, d.day + 1, d.month_range, by have := d.day_range; omega⟩
  else if hmh : d.month < 12 then
    ⟨d.year, d.month + 1, 1, by have := d.month_range; omega, by have := monthLength_range d.year (d.month + 1); omega⟩
  else ⟨d.year + 1, 1, 1, by omega, by have := monthLength_range (d.year + 1) 1; omega⟩

def previous (d : Date) : Date :=
  if hday : 1 < d.day then ⟨d.year, d.month, d.day - 1, d.month_range, by have := d.day_range; omega⟩
  else if hmh : 1 < d.month then
    ⟨d.year, d.month - 1, monthLength d.year (d.month - 1), by have := d.month_range; omega,
      by have := monthLength_range d.year (d.month - 1); omega⟩
  else ⟨d.year - 1, 12, monthLength (d.year - 1) 12, by omega, by have := monthLength_range (d.year - 1) 12; omega⟩

end Date

def dateOf : Int → Date
  | .ofNat n => .next^[n] .epoch
  | .negSucc n => .previous^[n + 1] .epoch

/-- Days of the week are counted from Sunday; the epoch is a Thursday. -/
def weekday (day : Int) : Int := (4 + day) % 7

def yearStart : Int := 365 * (year - 1970) + ((year - 1) / 4 - (year - 1) / 100 + (year - 1) / 400) - 477

theorem yearStart_succ : yearStart (year + 1) = yearStart year + yearLength year := by
  unfold yearStart yearLength IsLeap
  split_ifs <;> omega

theorem yearStart_lt {year year' : Int} (h : year < year') : yearStart year < yearStart year' := by
  have hmon : StrictMono yearStart := by
    refine strictMono_int_of_lt_succ fun year => ?_
    rw [yearStart_succ]
    unfold yearLength
    split_ifs <;> omega
  exact hmon h

def monthStart (year month : Int) : Int := ((List.range (month - 1).toNat).map fun i : Nat => monthLength year (i + 1)).sum

theorem monthStart_one : monthStart year 1 = 0 := rfl

theorem monthStart_succ {month : Int} (h : 1 ≤ month) :
    monthStart year (month + 1) = monthStart year month + monthLength year month := by
  obtain ⟨n, rfl⟩ : ∃ n : Nat, month = n + 1 := ⟨(month - 1).toNat, by omega⟩
  have hscc : ((n : Int) + 1 + 1 - 1).toNat = n + 1 := by omega
  have hsm : ((n : Int) + 1 - 1).toNat = n := by omega
  rw [monthStart, monthStart, hscc, hsm, List.range_succ, List.map_append, List.sum_append]
  simp

theorem monthStart_mono {month month' : Int} (h : 1 ≤ month) (hle : month ≤ month') :
    monthStart year month ≤ monthStart year month' := by
  obtain ⟨n, rfl⟩ : ∃ n : Nat, month' = month + n := ⟨(month' - month).toNat, by omega⟩
  induction n with
  | zero => simp
  | succ n ih =>
    have hlen := monthLength_range year (month + n)
    have hsr := monthStart_succ year (show 1 ≤ month + (n : Int) by omega)
    rw [Nat.cast_succ, ← add_assoc]
    omega

theorem monthStart_end : monthStart year 13 = yearLength year := by
  have hrn : .range ((13 : Int) - 1).toNat = [0, 1, 2, 3, 4, 5, 6, 7, 8, 9, 10, 11] := rfl
  rw [monthStart, hrn, yearLength]
  by_cases hlep : IsLeap year <;> simp [monthLength, hlep]

namespace Date

def number (d : Date) : Int := yearStart d.year + monthStart d.year d.month + (d.day - 1)

def inYear (d : Date) : Int := monthStart d.year d.month + (d.day - 1)

theorem inYear_range (d : Date) : 0 ≤ d.inYear ∧ d.inYear < yearLength d.year := by
  have hmh := d.month_range
  have hday := d.day_range
  have hlow := monthStart_mono d.year (Int.le_refl 1) hmh.1
  have hhg := monthStart_mono d.year (by omega) (show d.month + 1 ≤ 13 by omega)
  rw [monthStart_succ d.year hmh.1, monthStart_end] at hhg
  rw [monthStart_one] at hlow
  unfold inYear
  omega

theorem number_next (d : Date) : d.next.number = d.number + 1 := by
  have hmh := d.month_range
  have hday := d.day_range
  unfold next
  split
  · simp only [number]
    omega
  · have hsr := monthStart_succ d.year hmh.1
    split
    · simp only [number]
      omega
    · have htwl : d.month = 12 := by omega
      have hend : monthStart d.year (d.month + 1) = yearLength d.year := by
        rw [htwl]
        exact monthStart_end d.year
      simp only [number, yearStart_succ, monthStart_one]
      omega

theorem number_previous (d : Date) : d.previous.number = d.number - 1 := by
  have hmh := d.month_range
  have hday := d.day_range
  unfold previous
  split
  · simp only [number]
    omega
  · split
    · have hsr := monthStart_succ d.year (show 1 ≤ d.month - 1 by omega)
      rw [Int.sub_add_cancel] at hsr
      simp only [number]
      omega
    · have hone : d.month = 1 := by omega
      have hend : monthStart (d.year - 1) (12 + 1) = yearLength (d.year - 1) := monthStart_end (d.year - 1)
      have hsr := monthStart_succ (d.year - 1) (show 1 ≤ (12 : Int) by omega)
      have hyr := yearStart_succ (d.year - 1)
      rw [Int.sub_add_cancel] at hyr
      simp only [number, hone, monthStart_one]
      omega

theorem number_epoch : epoch.number = 0 := by
  decide

theorem number_injective : Function.Injective number := by
  intro d d' h
  have hyr : d.year = d'.year := by
    -- a later year starts after every date of an earlier one
    have hlr : ∀ d d' : Date, d.number = d'.number → ¬d.year < d'.year := by
      intro d d' h hlt
      have hsr : yearStart (d.year + 1) ≤ yearStart d'.year := by
        rcases eq_or_lt_of_le (show d.year + 1 ≤ d'.year by omega) with heq | hlt
        · rw [heq]
        · exact le_of_lt (yearStart_lt hlt)
      have hrn := d.inYear_range
      have hrn' := d'.inYear_range
      rw [yearStart_succ] at hsr
      unfold number at h
      unfold inYear at hrn hrn'
      omega
    have hnot := hlr d d' h
    have hnot' := hlr d' d h.symm
    omega
  have hmh : d.month = d'.month := by
    have hlr : ∀ d d' : Date, d.year = d'.year → d.number = d'.number → ¬d.month < d'.month := by
      intro d d' hyr h hlt
      have hsr := monthStart_mono d.year (by have := d.month_range; omega)
        (show d.month + 1 ≤ d'.month by omega)
      have hday := d.day_range
      have hday' := d'.day_range
      rw [monthStart_succ d.year d.month_range.1] at hsr
      unfold number at h
      rw [← hyr] at h
      omega
    have hnot := hlr d d' hyr h
    have hnot' := hlr d' d hyr.symm h.symm
    omega
  have hday : d.day = d'.day := by
    unfold number at h
    rw [hyr, hmh] at h
    omega
  exact Date.ext hyr hmh hday

end Date

theorem number_dateOf (day : Int) : (dateOf day).number = day := by
  cases day with
  | ofNat n =>
    induction n with
    | zero => exact Date.number_epoch
    | succ n ih =>
      have hnx : dateOf (.ofNat (n + 1)) = (dateOf (.ofNat n)).next := Function.iterate_succ_apply' _ n _
      rw [hnx, Date.number_next, ih]
      rfl
  | negSucc n =>
    induction n with
    | zero =>
      rfl
    | succ n ih =>
      have hpre : dateOf (.negSucc (n + 1)) = (dateOf (.negSucc n)).previous := Function.iterate_succ_apply' _ (n + 1) _
      rw [hpre, Date.number_previous, ih, Int.negSucc_eq, Int.negSucc_eq]
      omega

theorem dateOf_number (d : Date) : dateOf d.number = d := Date.number_injective (number_dateOf d.number)

end TouchHLE.Spec.Calendar
