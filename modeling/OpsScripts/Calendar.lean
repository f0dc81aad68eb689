/-
# The clock and the calendar

A clock reading is a number of nanoseconds since 1970-01-01 00:00:00 UTC.
`date` prints the second it falls in: `dateStamp` is
`date +%Y%m%d%H%M%S`, `dateTime` is `date "+%Y-%m-%d %H:%M:%S"`. Years count
from March here, so that the leap day is the last of its year and a year's
months all start where `(153 m + 2) / 5` says.

Two readings print the same stamp exactly if they fall in the same second
(`dateStamp_inj`), and a stamp is digits only (`isDigit_of_mem_dateStamp`).
-/
import OpsScripts.Text

namespace OpsScripts

/-- Nanoseconds in a second. -/
def second : ℕ := 1000000000

/-- Nanoseconds in a day. -/
def day : ℕ := 86400 * second

/-! ### Days -/

/-- A day of a 400-year cycle that starts on a 1st of March: how many whole
spans of 100, 4 years and 1 year are before it, and its day in its year. The
last span of each kind is a day longer or shorter, hence the caps. -/
def cycles (r : ℕ) : ℕ × ℕ × ℕ × ℕ :=
  let c := min (r / 36524) 3
  let q := min ((r - c * 36524) / 1461) 24
  let y := min ((r - c * 36524 - q * 1461) / 365) 3
  (c, q, y, r - c * 36524 - q * 1461 - y * 365)

/-- The day counted from 0000-03-01 of the day counted from 1970-01-01. -/
def marchDay (z : ℕ) : ℕ := z + 719468

/-- Year, month and day from a March-based year and the day in it. -/
def civilFrom (y doy : ℕ) : ℕ × ℕ × ℕ :=
  let mp := (5 * doy + 2) / 153
  let d := doy - (153 * mp + 2) / 5 + 1
  if mp < 10 then (y, mp + 3, d) else (y + 1, mp - 9, d)

/-- Year, month and day of a day counted from 1970-01-01. -/
def civil (z : ℕ) : ℕ × ℕ × ℕ :=
  match cycles (marchDay z % 146097) with
  | (c, q, y, doy) => civilFrom (400 * (marchDay z / 146097) + 100 * c + 4 * q + y) doy

/-- The March-based year of a date. -/
def yearFrom (y m : ℕ) : ℕ := if m ≤ 2 then y - 1 else y

/-- The day in its March-based year of a date. -/
def doyFrom (m d : ℕ) : ℕ := (153 * (if m ≤ 2 then m + 9 else m - 3) + 2) / 5 + (d - 1)

theorem min_div_mul_le (r n k : ℕ) : min (r / n) k * n ≤ r :=
  (Nat.mul_le_mul_right n (min_le_left _ _)).trans (Nat.div_mul_le_self r n)

theorem sub_min_div_le {r n k b : ℕ} (hb : n ≤ b + 1) (hn : 0 < n) (h : r ≤ k * n + b) :
    r - min (r / n) k * n ≤ b := by
  rcases le_total (r / n) k with hk | hk
  · rw [min_eq_left hk]
    have h1 := Nat.div_add_mod r n
    have h2 := Nat.mod_lt r hn
    rw [mul_comm] at h1
    omega
  · rw [min_eq_right hk]
    omega

/-- The spans before a day and its day in the year add up to it. -/
theorem cycles_spec (r : ℕ) (hr : r < 146097) : ∃ c q y d, cycles r = (c, q, y, d) ∧
    c ≤ 3 ∧ q ≤ 24 ∧ y ≤ 3 ∧ d ≤ 365 ∧ c * 36524 + q * 1461 + y * 365 + d = r := by
  obtain ⟨c, hc⟩ : ∃ c, c = min (r / 36524) 3 := ⟨_, rfl⟩
  obtain ⟨r1, e1⟩ : ∃ r1, r1 = r - c * 36524 := ⟨_, rfl⟩
  obtain ⟨q, hq⟩ : ∃ q, q = min (r1 / 1461) 24 := ⟨_, rfl⟩
  obtain ⟨r2, e2⟩ : ∃ r2, r2 = r1 - q * 1461 := ⟨_, rfl⟩
  obtain ⟨y, hy⟩ : ∃ y, y = min (r2 / 365) 3 := ⟨_, rfl⟩
  have l1 : c * 36524 ≤ r := hc ▸ min_div_mul_le r 36524 3
  have b1 : r1 ≤ 36524 := by
    rw [e1, hc]
    exact sub_min_div_le (by norm_num) (by norm_num) (by omega)
  have l2 : q * 1461 ≤ r1 := hq ▸ min_div_mul_le r1 1461 24
  have b2 : r2 ≤ 1460 := by
    rw [e2, hq]
    exact sub_min_div_le (by norm_num) (by norm_num) (by omega)
  have l3 : y * 365 ≤ r2 := hy ▸ min_div_mul_le r2 365 3
  have b3 : r2 - y * 365 ≤ 365 := by
    rw [hy]
    exact sub_min_div_le (by norm_num) (by norm_num) (by omega)
  refine ⟨c, q, y, r2 - y * 365, ?_, hc ▸ min_le_right _ _, hq ▸ min_le_right _ _,
    hy ▸ min_le_right _ _, b3, ?_⟩
  · rw [hy, e2, hq, e1, hc]
    rfl
  · clear hc hq hy
    omega

theorem civilFrom_spec (y doy : ℕ) (h : doy ≤ 365) :
    yearFrom (civilFrom y doy).1 (civilFrom y doy).2.1 = y ∧
      doyFrom (civilFrom y doy).2.1 (civilFrom y doy).2.2 = doy ∧
      (civilFrom y doy).2.1 ≤ 12 ∧ (civilFrom y doy).2.2 ≤ 31 := by
  have hmp : (153 * ((5 * doy + 2) / 153) + 2) / 5 ≤ doy := by omega
  simp only [civilFrom]
  by_cases hm : (5 * doy + 2) / 153 < 10
  · have n1 : ¬ (5 * doy + 2) / 153 + 3 ≤ 2 := by omega
    simp only [if_pos hm, yearFrom, doyFrom, n1, if_false, Nat.add_sub_cancel]
    refine ⟨trivial, ?_, ?_, ?_⟩ <;> omega
  · have n1 : (5 * doy + 2) / 153 - 9 ≤ 2 := by omega
    have n2 : (5 * doy + 2) / 153 - 9 + 9 = (5 * doy + 2) / 153 := by omega
    simp only [if_neg hm, yearFrom, doyFrom, n1, n2, if_true, Nat.add_sub_cancel]
    refine ⟨trivial, ?_, ?_, ?_⟩ <;> omega

theorem civil_bounds (z : ℕ) : (civil z).2.1 ≤ 12 ∧ (civil z).2.2 ≤ 31 := by
  obtain ⟨c, q, y, d, e, -, -, -, hd, -⟩ := cycles_spec _ (Nat.mod_lt (marchDay z) (by norm_num))
  unfold civil
  rw [e]
  exact (civilFrom_spec _ d hd).2.2

/-- **A date tells its day.** -/
theorem civil_inj {z w : ℕ} (h : civil z = civil w) : z = w := by
  obtain ⟨c, q, y, d, e, h1, h2, h3, h4, h5⟩ :=
    cycles_spec _ (Nat.mod_lt (marchDay z) (by norm_num))
  obtain ⟨c', q', y', d', e', h1', h2', h3', h4', h5'⟩ :=
    cycles_spec _ (Nat.mod_lt (marchDay w) (by norm_num))
  unfold civil at h
  rw [e, e'] at h
  obtain ⟨s1, s2, -⟩ := civilFrom_spec (400 * (marchDay z / 146097) + 100 * c + 4 * q + y) d h4
  obtain ⟨s1', s2', -⟩ := civilFrom_spec (400 * (marchDay w / 146097) + 100 * c' + 4 * q' + y') d' h4'
  simp only at h
  rw [h, s1'] at s1
  rw [h, s2'] at s2
  -- the year gives the cycle and the spans in it
  have hera : marchDay z / 146097 = marchDay w / 146097 := by omega
  have hc : c = c' := by omega
  have hq : q = q' := by omega
  have hy : y = y' := by omega
  have hr : marchDay z % 146097 = marchDay w % 146097 := by rw [← h5, ← h5', hc, hq, hy, s2]
  have hm : marchDay z = marchDay w := by
    rw [← Nat.div_add_mod (marchDay z) 146097, ← Nat.div_add_mod (marchDay w) 146097, hera, hr]
  exact Nat.add_right_cancel hm

/-! ### What `date` prints -/

/-- A number in decimal digits. -/
abbrev decimal (n : ℕ) : Text := Nat.toDigits 10 n

/-- A number below 100 as two digits. -/
def twoDigits (n : ℕ) : Text := [(n / 10).digitChar, (n % 10).digitChar]

/-- `date +%Y%m%d%H%M%S` at the second `s`. -/
def stampOf (s : ℕ) : Text :=
  decimal (civil (s / 86400)).1 ++ (twoDigits (civil (s / 86400)).2.1 ++
    (twoDigits (civil (s / 86400)).2.2 ++ (twoDigits (s % 86400 / 3600) ++
      (twoDigits (s % 3600 / 60) ++ twoDigits (s % 60)))))

/-- `date +%Y%m%d%H%M%S`. -/
def dateStamp (t : ℕ) : Text := stampOf (t / second)

/-- `date "+%Y-%m-%d %H:%M:%S"`. -/
def dateTime (t : ℕ) : Text :=
  let s := t / second
  decimal (civil (s / 86400)).1 ++ '-' :: (twoDigits (civil (s / 86400)).2.1 ++ '-' ::
    (twoDigits (civil (s / 86400)).2.2 ++ ' ' :: (twoDigits (s % 86400 / 3600) ++ ':' ::
      (twoDigits (s % 3600 / 60) ++ ':' :: twoDigits (s % 60)))))

theorem ofDigitChars_twoDigits_append (n : ℕ) (h : n < 100) (t : Text) (k : ℕ) :
    Nat.ofDigitChars 10 (twoDigits n ++ t) k = Nat.ofDigitChars 10 t (100 * k + n) := by
  have h1 : n / 10 < 10 := by omega
  have h2 : n % 10 < 10 := by omega
  simp only [twoDigits, List.cons_append, List.nil_append,
    Nat.ofDigitChars_cons_digitChar_of_lt_ten h1, Nat.ofDigitChars_cons_digitChar_of_lt_ten h2]
  congr 1
  omega

theorem ofDigitChars_twoDigits (n : ℕ) (h : n < 100) (k : ℕ) :
    Nat.ofDigitChars 10 (twoDigits n) k = 100 * k + n := by
  simpa using ofDigitChars_twoDigits_append n h [] k

theorem month_lt (z : ℕ) : (civil z).2.1 < 100 := lt_of_le_of_lt (civil_bounds z).1 (by norm_num)

theorem dayOfMonth_lt (z : ℕ) : (civil z).2.2 < 100 := lt_of_le_of_lt (civil_bounds z).2 (by norm_num)

theorem hour_lt (s : ℕ) : s % 86400 / 3600 < 100 := by omega

theorem minute_lt (s : ℕ) : s % 3600 / 60 < 100 := by omega

theorem sec_lt (s : ℕ) : s % 60 < 100 := by omega

/-- The number a stamp's digits write. -/
theorem ofDigitChars_stampOf (s : ℕ) :
    Nat.ofDigitChars 10 (stampOf s) 0 =
      100 * (100 * (100 * (100 * (100 * (civil (s / 86400)).1 + (civil (s / 86400)).2.1) +
        (civil (s / 86400)).2.2) + s % 86400 / 3600) + s % 3600 / 60) + s % 60 := by
  rw [stampOf, Nat.ofDigitChars_append, Nat.ofDigitChars_ten_toDigits,
    ofDigitChars_twoDigits_append _ (month_lt _), ofDigitChars_twoDigits_append _ (dayOfMonth_lt _),
    ofDigitChars_twoDigits_append _ (hour_lt s), ofDigitChars_twoDigits_append _ (minute_lt s),
    ofDigitChars_twoDigits _ (sec_lt s)]

/-- Two digits at a time, the last pair comes off. -/
theorem hundreds_inj {a b m n : ℕ} (hm : m < 100) (hn : n < 100) (h : 100 * a + m = 100 * b + n) :
    a = b ∧ m = n := by
  omega

theorem stampOf_inj {s u : ℕ} (h : stampOf s = stampOf u) : s = u := by
  have hv := congrArg (Nat.ofDigitChars 10 · 0) h
  simp only [ofDigitChars_stampOf] at hv
  obtain ⟨hv, e1⟩ := hundreds_inj (sec_lt s) (sec_lt u) hv
  obtain ⟨hv, e2⟩ := hundreds_inj (minute_lt s) (minute_lt u) hv
  obtain ⟨hv, e3⟩ := hundreds_inj (hour_lt s) (hour_lt u) hv
  obtain ⟨hv, e4⟩ := hundreds_inj (dayOfMonth_lt _) (dayOfMonth_lt _) hv
  obtain ⟨e6, e5⟩ := hundreds_inj (month_lt _) (month_lt _) hv
  have hday : s / 86400 = u / 86400 := civil_inj (Prod.ext e6 (Prod.ext e5 e4))
  omega

/-- **A stamp tells the second it was printed in.** -/
theorem dateStamp_inj {t u : ℕ} : dateStamp t = dateStamp u ↔ t / second = u / second :=
  ⟨stampOf_inj, fun h => congrArg stampOf h⟩

example : dateStamp (1709210096 * second + 5) = "20240229123456".toList := by decide

theorem isDigit_digitChar (n : ℕ) (h : n < 10) : n.digitChar.isDigit = true :=
  Nat.isDigit_of_mem_toDigits (b := 10) (n := n) (by norm_num) (by norm_num)
    (by rw [Nat.toDigits_of_lt_base h]; exact List.mem_singleton_self _)

theorem isDigit_of_mem_twoDigits {n : ℕ} (h : n < 100) {c : Char} (hc : c ∈ twoDigits n) :
    c.isDigit = true := by
  simp only [twoDigits, List.mem_cons, List.not_mem_nil, or_false] at hc
  rcases hc with rfl | rfl
  · exact isDigit_digitChar _ (by omega)
  · exact isDigit_digitChar _ (by omega)

/-- A stamp is digits. -/
theorem isDigit_of_mem_dateStamp {t : ℕ} {c : Char} (hc : c ∈ dateStamp t) : c.isDigit = true := by
  simp only [dateStamp, stampOf, List.mem_append] at hc
  rcases hc with hc | hc | hc | hc | hc | hc
  · exact Nat.isDigit_of_mem_toDigits (by norm_num) (by norm_num) hc
  · exact isDigit_of_mem_twoDigits (month_lt _) hc
  · exact isDigit_of_mem_twoDigits (dayOfMonth_lt _) hc
  · exact isDigit_of_mem_twoDigits (hour_lt _) hc
  · exact isDigit_of_mem_twoDigits (minute_lt _) hc
  · exact isDigit_of_mem_twoDigits (sec_lt _) hc

/-- A time is digits, dashes, colons and a blank. -/
theorem notMem_dateTime {c : Char} (hc : c.isDigit = false) (hdash : c ≠ '-') (hcolon : c ≠ ':') (hblank : c ≠ ' ')
    (t : ℕ) : c ∉ dateTime t := by
  have hdigit : c.isDigit ≠ true := by simp [hc]
  intro h
  simp only [dateTime, List.mem_append, List.mem_cons] at h
  rcases h with h | h | h | h | h | h | h | h | h | h | h
  · exact hdigit (Nat.isDigit_of_mem_toDigits (by norm_num) (by norm_num) h)
  · exact hdash h
  · exact hdigit (isDigit_of_mem_twoDigits (month_lt _) h)
  · exact hdash h
  · exact hdigit (isDigit_of_mem_twoDigits (dayOfMonth_lt _) h)
  · exact hblank h
  · exact hdigit (isDigit_of_mem_twoDigits (hour_lt _) h)
  · exact hcolon h
  · exact hdigit (isDigit_of_mem_twoDigits (minute_lt _) h)
  · exact hcolon h
  · exact hdigit (isDigit_of_mem_twoDigits (sec_lt _) h)

end OpsScripts
