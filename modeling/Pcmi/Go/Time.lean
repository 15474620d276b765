import Mathlib.Algebra.GroupWithZero.Nat
import Mathlib.Data.List.DropRight
import Pcmi.Go.Strconv

/-!
# Instants and RFC 3339

`time.Time` in JSON. The text holds date and clock in some location and its distance from UTC to the
minute, from which the instant is computed again (`parseRFC3339_formatRFC3339Nano`).
-/

namespace Pcmi.Go

open List Option

/-- `time.Time` as an instant: nanoseconds since 1970 in UTC. -/
abbrev Instant := Int

/-- `time.Time{}`: the beginning of the year 1. -/
def zeroInstant : Instant := -62135596800000000000

/-- `time.Location`: the seconds east of UTC, whole minutes since 1973. -/
structure Location where
  offset : Int → Int
  minutes : ∀ sec, 94694400 ≤ sec → 60 ∣ offset sec
  day : ∀ sec, (offset sec).natAbs < 86400

/-! ## The calendar -/

def isLeap (year : Int) : Bool := year % 4 == 0 && (year % 100 != 0 || year % 400 == 0)

def monthDays (leap : Bool) : List Nat :=
  [31, if leap then 29 else 28, 31, 30, 31, 30, 31, 31, 30, 31, 30, 31]

def daysIn (year : Int) (month : Nat) : Nat := (monthDays (isLeap year)).getD (month - 1) 0

structure CivilDate where
  year : Int
  month : Nat
  day : Nat

/-- The days from the beginning of the year 1 to that of another year. -/
def daysBeforeYear (year : Int) : Int :=
  365 * (year - 1) + (year - 1) / 4 - (year - 1) / 100 + (year - 1) / 400

/-- The days from the beginning of the year 1 to a date. -/
def CivilDate.days (date : CivilDate) : Int :=
  daysBeforeYear date.year + ((monthDays (isLeap date.year)).take (date.month - 1)).sum +
    (date.day - 1)

def yearOf (days : Int) : Int × Nat :=
  let d := (days % 146097).toNat
  let centuries := min (d / 36524) 3
  let d := d - 36524 * centuries
  let leaps := d / 1461
  let d := d % 1461
  let years := min (d / 365) 3
  (400 * (days / 146097) + 100 * centuries + 4 * leaps + years + 1, d - 365 * years)

def monthOf : List Nat → Nat → Nat × Nat
  | [], d => (0, d)
  | n :: months, d =>
    if d < n then (0, d) else ((monthOf months (d - n)).1 + 1, (monthOf months (d - n)).2)

def civilDate (days : Int) : CivilDate where
  year := (yearOf days).1
  month := (monthOf (monthDays (isLeap (yearOf days).1)) (yearOf days).2).1 + 1
  day := (monthOf (monthDays (isLeap (yearOf days).1)) (yearOf days).2).2 + 1

/-- Only the fourth year of four has a day more, and only the fourth century of four ends with such
a year. -/
theorem yearOf_cycles (days : Int) : ∃ (a : Int) (c l y r : Nat),
    yearOf days = (400 * a + 100 * c + 4 * l + y + 1, r) ∧
      days = 146097 * a + 36524 * c + 1461 * l + 365 * y + r ∧ c ≤ 3 ∧ l ≤ 24 ∧ y ≤ 3 ∧
      (r < 365 ∨ r = 365 ∧ y = 3 ∧ (l = 24 → c = 3)) := by
  refine ⟨days / 146097, _, _, _, _, rfl, ?_⟩
  generalize hd : (days % 146097).toNat = d
  generalize hc : min (d / 36524) 3 = c
  generalize hr : d - 36524 * c = r
  generalize hy : min (r % 1461 / 365) 3 = y
  omega

theorem isLeap_iff {a : Int} {c l y : Nat} (hc : c ≤ 3) (hl : l ≤ 24) (hy : y ≤ 3) :
    isLeap (400 * a + 100 * c + 4 * l + y + 1) = true ↔ y = 3 ∧ (l = 24 → c = 3) := by
  simp only [isLeap, Bool.and_eq_true, Bool.or_eq_true, beq_iff_eq, bne_iff_ne, ne_eq]
  omega

theorem yearOf_spec (days : Int) :
    daysBeforeYear (yearOf days).1 + (yearOf days).2 = days ∧
      (yearOf days).2 < (monthDays (isLeap (yearOf days).1)).sum := by
  have hlength : ∀ leap, (monthDays leap).sum = if leap then 366 else 365 := by decide
  obtain ⟨a, c, l, y, r, hyear, hdays, hc, hl, hy, hr⟩ := yearOf_cycles days
  rw [hyear, hlength]
  constructor
  · unfold daysBeforeYear
    dsimp only
    omega
  · dsimp only
    split
    · omega
    next hleap =>
    rw [isLeap_iff hc hl hy] at hleap
    rcases hr with hr | ⟨-, hfourth⟩
    · exact hr
    · exact absurd hfourth hleap

theorem monthOf_spec {months : List Nat} {d : Nat} (h : d < months.sum) :
    (months.take (monthOf months d).1).sum + (monthOf months d).2 = d ∧
      (monthOf months d).1 < months.length ∧
      (monthOf months d).2 < months.getD (monthOf months d).1 0 := by
  induction months generalizing d with
  | nil => exact absurd h (Nat.not_lt_zero d)
  | cons n months ih =>
    rw [sum_cons] at h
    rw [monthOf]
    split
    · next hlt => exact ⟨Nat.zero_add d, Nat.succ_pos _, hlt⟩
    obtain ⟨hsum, hlength, hday⟩ := ih (show d - n < months.sum by omega)
    refine ⟨?_, Nat.succ_lt_succ hlength, hday⟩
    rw [take_succ_cons, sum_cons]
    omega

/-- **A date is the date of one day.** -/
theorem days_civilDate (days : Int) : (civilDate days).days = days := by
  obtain ⟨hyear, hday⟩ := yearOf_spec days
  obtain ⟨hmonth, -, -⟩ := monthOf_spec hday
  unfold CivilDate.days civilDate
  dsimp only
  rw [Nat.add_sub_cancel]
  omega

theorem civilDate_bounds (days : Int) :
    1 ≤ (civilDate days).month ∧ (civilDate days).month ≤ 12 ∧ 1 ≤ (civilDate days).day ∧
      (civilDate days).day ≤ daysIn (civilDate days).year (civilDate days).month := by
  obtain ⟨-, hmonth, hday⟩ := monthOf_spec (yearOf_spec days).2
  have hlength : ∀ leap, (monthDays leap).length = 12 := by decide
  rw [hlength] at hmonth
  exact ⟨Nat.succ_pos _, hmonth, Nat.succ_pos _, hday⟩

theorem year_civilDate (days : Int) (h : 0 ≤ days) (h' : days < 3651694) :
    1 ≤ (civilDate days).year ∧ (civilDate days).year ≤ 9999 := by
  obtain ⟨a, c, l, y, r, hyear, hdays, hc, hl, hy, hr⟩ := yearOf_cycles days
  unfold civilDate
  rw [hyear]
  dsimp only
  omega

/-! ## Writing -/

/-- `appendInt`: at least so many digits. -/
def appendInt (x : Int) (width : Nat) : Bytes :=
  (if x < 0 then [0x2D] else []) ++
    (List.replicate (width - (formatNat x.natAbs).length) 0x30 ++ formatNat x.natAbs)

/-- `appendNano`: the fraction of a second without its last zeros. -/
def appendNano (nanos : Nat) : Bytes :=
  match (appendInt nanos 9).rdropWhile (· == 0x30) with
  | [] => []
  | digits => 0x2E :: digits

/-- The location at the end of the text, to the minute. -/
def appendZone (offset : Int) : Bytes :=
  if offset = 0 then [0x5A]
  else
    let zone := offset.tdiv 60
    (if zone < 0 then 0x2D else 0x2B) ::
      (appendInt (zone.natAbs / 60 : Nat) 2 ++ 0x3A :: appendInt (zone.natAbs % 60 : Nat) 2)

/-- Date and clock of a second since 1970, and the rest of the text. -/
def appendClock (sec : Int) (rest : Bytes) : Bytes :=
  let date := civilDate (sec / 86400 + 719162)
  let clock := (sec % 86400).toNat
  appendInt date.year 4 ++ (0x2D :: (appendInt date.month 2 ++ (0x2D :: (appendInt date.day 2 ++
    (0x54 :: (appendInt (clock / 3600 : Nat) 2 ++ (0x3A :: (appendInt (clock % 3600 / 60 : Nat) 2 ++
      (0x3A :: (appendInt (clock % 60 : Nat) 2 ++ rest))))))))))

/-- `appendFormatRFC3339` with nanoseconds. -/
def formatRFC3339Nano (loc : Location) (t : Instant) : Bytes :=
  let sec := t / 1000000000
  let offset := loc.offset sec
  appendClock (sec + offset) (appendNano (t % 1000000000).toNat ++ appendZone offset)

/-- `Time.MarshalJSON`; `none` is an error. -/
def marshalTime (loc : Location) (t : Instant) : Option Bytes :=
  let text := formatRFC3339Nano loc t
  if text[4]? ≠ some 0x2D then none
  else if 86400 ≤ (loc.offset (t / 1000000000)).natAbs then none
  else some (0x22 :: (text ++ [0x22]))

/-! ## Reading -/

/-- A number of so many digits, in a range, and what stands behind it. -/
def readUint (width lo hi : Nat) (s : Bytes) : Option (Nat × Bytes) :=
  if s.length < width then none
  else
    match readDigits 0 (s.take width) with
    | some n => if lo ≤ n ∧ n ≤ hi then some (n, s.drop width) else none
    | none => none

def readByte (c : UInt8) : Bytes → Option Bytes
  | b :: rest => if b = c then some rest else none
  | [] => none

/-- A number with the character that ends it. -/
def readField (width lo hi : Nat) (c : UInt8) (s : Bytes) : Option (Nat × Bytes) :=
  (readUint width lo hi s).bind fun x => (readByte c x.2).map fun rest => (x.1, rest)

/-- The nanoseconds of a fraction; further digits are passed over. -/
def readNano (s : Bytes) : Nat × Bytes :=
  let digits := s.tail.takeWhile isDigit
  if s.head? = some 0x2E ∧ digits ≠ [] then
    ((readDigits 0 (digits.take 9)).getD 0 * 10 ^ (9 - digits.length), s.tail.dropWhile isDigit)
  else (0, s)

def readZone (s : Bytes) : Option Int :=
  if s = [0x5A] then some 0
  else
    match s with
    | sign :: rest =>
      (readField 2 0 23 0x3A rest).bind fun (hours, rest) =>
        (readUint 2 0 59 rest).bind fun (minutes, rest) =>
          if rest ≠ [] then none
          else if sign = 0x2B then some ((hours * 60 + minutes) * 60)
          else if sign = 0x2D then some (-((hours * 60 + minutes) * 60))
          else none
    | [] => none

def parseRFC3339 (s : Bytes) : Option Instant :=
  (readField 4 0 9999 0x2D s).bind fun (year, s) =>
  (readField 2 1 12 0x2D s).bind fun (month, s) =>
  (readField 2 1 (daysIn year month) 0x54 s).bind fun (day, s) =>
  (readField 2 0 23 0x3A s).bind fun (hour, s) =>
  (readField 2 0 59 0x3A s).bind fun (min, s) =>
  (readUint 2 0 59 s).bind fun (sec, s) =>
  (readZone (readNano s).2).bind fun offset =>
    let days := CivilDate.days ⟨year, month, day⟩ - 719162
    let t : Int := (days * 86400 + hour * 3600 + min * 60 + sec - offset) * 1000000000 +
      (readNano s).1
    some t

/-- `Time.UnmarshalJSON`: what the quick reader refuses goes to `time.Parse`. -/
def unmarshalTime (parse : Bytes → Option Instant) (old : Instant) (data : Bytes) :
    Option Instant :=
  if data = ascii "null" then some old
  else if data.length < 2 ∨ data.head? ≠ some 0x22 ∨ data.getLast? ≠ some 0x22 then none
  else (parseRFC3339 data.tail.dropLast).or (parse data.tail.dropLast)

/-! ## Round trip -/

variable {c : UInt8} {width nanos : Nat} {n hi lo : Nat} {rest : Bytes} {offset : Int}

theorem length_formatNat_le (hwidth : 0 < width) (h : n < 10 ^ width) :
    (formatNat n).length ≤ width := by
  rw [formatNat, length_map]
  exact (Nat.length_toDigits_le_iff (by decide) hwidth).mpr h

theorem appendInt_natCast (n width : Nat) :
    appendInt n width = List.replicate (width - (formatNat n).length) 0x30 ++ formatNat n := by
  rw [appendInt, if_neg (by omega), nil_append, Int.natAbs_natCast]

theorem length_appendInt (hwidth : 0 < width) (h : n < 10 ^ width) :
    (appendInt n width).length = width := by
  have := length_formatNat_le hwidth h
  rw [appendInt_natCast, length_append, length_replicate]
  omega

theorem readDigits_replicate (acc k : Nat) :
    readDigits acc (List.replicate k 0x30) = some (acc * 10 ^ k) := by
  induction k generalizing acc with
  | zero => rw [Nat.pow_zero, Nat.mul_one]; rfl
  | succ k ih =>
    rw [replicate_succ, readDigits, if_pos (by decide)]
    refine (ih _).trans ?_
    rw [Nat.pow_succ', ← Nat.mul_assoc]
    rfl

theorem readDigits_appendInt (n width : Nat) : readDigits 0 (appendInt n width) = some n := by
  rw [appendInt_natCast, readDigits_append, readDigits_replicate, Nat.zero_mul, bind_some,
    readDigits_formatNat]

/-- **A padded number is read back.** -/
theorem readUint_appendInt (hwidth : 0 < width) (h : n < 10 ^ width) (hlo : lo ≤ n) (hhi : n ≤ hi)
    (rest : Bytes) :
    readUint width lo hi (appendInt n width ++ rest) = some (n, rest) := by
  have hlength := length_appendInt hwidth h
  rw [readUint, if_neg (by rw [length_append]; omega), take_left' hlength,
    drop_left' hlength, readDigits_appendInt]
  exact if_pos ⟨hlo, hhi⟩

theorem readField_appendInt (hwidth : 0 < width) (h : n < 10 ^ width) (hlo : lo ≤ n) (hhi : n ≤ hi)
    (c : UInt8) (rest : Bytes) :
    readField width lo hi c (appendInt n width ++ c :: rest) = some (n, rest) := by
  rw [readField, readUint_appendInt hwidth h hlo hhi, bind_some, readByte, if_pos rfl]
  rfl

theorem mem_appendInt (h : c ∈ appendInt n width) : isDigit c = true := by
  rw [appendInt_natCast] at h
  rcases mem_append.mp h with h | h
  · rw [eq_of_mem_replicate h]
    decide
  · exact isDigit_of_mem_formatNat h

theorem zone_not_digit (offset : Int) : ∃ c rest, appendZone offset = c :: rest ∧
    isDigit c = false ∧ c ≠ 0x2E := by
  unfold appendZone
  split
  · exact ⟨0x5A, [], rfl, by decide, by decide⟩
  dsimp only
  split
  · exact ⟨0x2D, _, rfl, by decide, by decide⟩
  · exact ⟨0x2B, _, rfl, by decide, by decide⟩

/-- The fraction has the digits that are left without the last zeros. -/
theorem nano_digits (h : nanos < 1000000000) : ∃ zeros v,
    readDigits 0 ((appendInt nanos 9).rdropWhile (· == 0x30)) = some v ∧ v * 10 ^ zeros = nanos ∧
      ((appendInt nanos 9).rdropWhile (· == 0x30)).length + zeros = 9 := by
  have hlength : (appendInt nanos 9).length = 9 := length_appendInt (by decide) h
  have hread := readDigits_appendInt nanos 9
  have hzeros : (appendInt nanos 9).rtakeWhile (· == 0x30) =
      List.replicate ((appendInt nanos 9).rtakeWhile (· == 0x30)).length 0x30 :=
    eq_replicate_of_mem fun x hx => by simpa using mem_rtakeWhile_imp hx
  have hsplit : (appendInt nanos 9).rdropWhile (· == 0x30) ++
      (appendInt nanos 9).rtakeWhile (· == 0x30) = appendInt nanos 9 :=
    rdropWhile_append_rtakeWhile
  rw [← hsplit, length_append] at hlength
  rw [← hsplit, hzeros, readDigits_append] at hread
  obtain ⟨v, hv, hnanos⟩ := bind_eq_some_iff.mp hread
  rw [readDigits_replicate] at hnanos
  exact ⟨_, v, hv, Option.some.inj hnanos, hlength⟩

theorem readNano_dot {digits : Bytes} {v : Nat} (hne : digits ≠ [])
    (hdigits : ∀ x ∈ digits, isDigit x = true) (hc : isDigit c = false)
    (hlength : digits.length ≤ 9) (hread : readDigits 0 digits = some v) :
    readNano (0x2E :: (digits ++ c :: rest)) = (v * 10 ^ (9 - digits.length), c :: rest) := by
  have htake : (digits ++ c :: rest).takeWhile isDigit = digits := by
    rw [takeWhile_append_of_pos hdigits, takeWhile_cons_of_neg (by simp [hc]),
      append_nil]
  have hdrop : (digits ++ c :: rest).dropWhile isDigit = c :: rest := by
    rw [dropWhile_append_of_pos hdigits, dropWhile_cons_of_neg (by simp [hc])]
  unfold readNano
  rw [tail_cons, head?_cons, htake, hdrop]
  dsimp only
  rw [if_pos ⟨rfl, hne⟩, take_of_length_le hlength, hread]
  rfl

/-- **A fraction is read back.** -/
theorem readNano_appendNano (h : nanos < 1000000000) (offset : Int) :
    readNano (appendNano nanos ++ appendZone offset) = (nanos, appendZone offset) := by
  obtain ⟨c, rest, hzone, hdigit, hdot⟩ := zone_not_digit offset
  obtain ⟨zeros, v, hv, hnanos, hlength⟩ := nano_digits h
  rw [hzone]
  unfold appendNano
  cases hdigits : (appendInt nanos 9).rdropWhile (· == 0x30) with
  | nil =>
    rw [hdigits] at hv
    obtain rfl : 0 = v := Option.some.inj hv
    rw [Nat.zero_mul] at hnanos
    subst hnanos
    exact if_neg fun hhead => hdot (Option.some.inj hhead.1)
  | cons d digits =>
    have hall : ∀ x ∈ d :: digits, isDigit x = true := by
      intro x hx
      rw [← hdigits] at hx
      exact mem_appendInt (( rdropWhile_prefix _ _).subset hx)
    rw [hdigits] at hv hlength
    have hexp : 9 - (d :: digits).length = zeros := by omega
    have hnano : readNano (0x2E :: (d :: digits ++ c :: rest)) =
        (v * 10 ^ (9 - (d :: digits).length), c :: rest) :=
      readNano_dot (cons_ne_nil d digits) hall hdigit (by omega) hv
    rw [hexp, hnanos] at hnano
    exact hnano

/-- **A location to the minute is read back.** -/
theorem readZone_appendZone (hminutes : 60 ∣ offset) (hday : offset.natAbs < 86400) :
    readZone (appendZone offset) = some offset := by
  obtain ⟨zone, rfl⟩ := hminutes
  have hzone : (60 * zone).tdiv 60 = zone := Int.mul_tdiv_cancel_left zone (by decide)
  unfold appendZone
  split
  · next hzero =>
    rw [hzero]
    rfl
  rw [hzone]
  have hhours : ∀ rest, readField 2 0 23 0x3A
      (appendInt ((zone.natAbs / 60 : Nat) : Int) 2 ++ 0x3A :: rest) =
        some (zone.natAbs / 60, rest) :=
    readField_appendInt (by decide) (by omega) (by omega) (by omega) 0x3A
  have hminutes : readUint 2 0 59 (appendInt ((zone.natAbs % 60 : Nat) : Int) 2 ++ []) =
      some (zone.natAbs % 60, []) :=
    readUint_appendInt (by decide) (by omega) (by omega) (by omega) []
  rw [append_nil] at hminutes
  unfold readZone
  dsimp only
  rw [if_neg]
  · rw [hhours, bind_some]
    dsimp only
    rw [hminutes, bind_some]
    dsimp only
    rw [if_neg (not_not.mpr rfl)]
    split
    · rw [if_neg (by decide), if_pos rfl, some_inj]
      omega
    · rw [if_pos rfl, some_inj]
      omega
  · simp

theorem daysIn_le (year : Int) (month : Nat) : daysIn year month ≤ 31 := by
  have hall : ∀ leap, ∀ n ∈ monthDays leap, n ≤ 31 := by decide
  unfold daysIn
  rw [getD_eq_getElem?_getD]
  cases h : (monthDays (isLeap year))[month - 1]? with
  | none => exact Nat.zero_le 31
  | some n => exact hall _ n (mem_of_getElem? h)

/-- **Date and clock are read back**, in years of four digits. -/
theorem parseRFC3339_appendClock {sec : Int} (hyear : -62135596800 ≤ sec)
    (hyear' : sec < 253370764800) (hnano : readNano rest = (nanos, appendZone offset))
    (hzone : readZone (appendZone offset) = some offset) :
    parseRFC3339 (appendClock sec rest) = some ((sec - offset) * 1000000000 + nanos) := by
  obtain ⟨hm, hm', hd, hd'⟩ := civilDate_bounds (sec / 86400 + 719162)
  obtain ⟨hy, hy'⟩ := year_civilDate (sec / 86400 + 719162) (by omega) (by omega)
  have hdays := days_civilDate (sec / 86400 + 719162)
  have hclock : ((sec % 86400).toNat : Int) = sec % 86400 :=
    Int.toNat_of_nonneg (Int.emod_nonneg sec (by decide))
  unfold appendClock
  dsimp only
  generalize civilDate (sec / 86400 + 719162) = date at hm hm' hd hd' hy hy' hdays ⊢
  generalize (sec % 86400).toNat = clock at hclock ⊢
  obtain ⟨year, month, day⟩ := date
  obtain ⟨year, rfl⟩ := Int.eq_ofNat_of_zero_le (Int.le_trans (by decide) hy)
  have hlast := daysIn_le year month
  dsimp only at *
  unfold parseRFC3339
  simp (disch := omega) only [readField_appendInt, readUint_appendInt, bind_some, hnano, hzone,
    hdays]
  refine congrArg some (?_ : @Eq Int _ _)
  omega

/-- The instants that a clock shows, from 1973 up to the year 9999. -/
def ClockTime (t : Instant) : Prop :=
  94694400000000000 ≤ t ∧ t < 253370678400000000000

instance (t : Instant) : Decidable (ClockTime t) := inferInstanceAs (Decidable (_ ∧ _))

section

variable {loc : Location} {t : Int}

theorem ClockTime.sec (h : ClockTime t) :
    94694400 ≤ t / 1000000000 ∧ t / 1000000000 < 253370678400 := by
  obtain ⟨h₁, h₂⟩ : (94694400000000000 : Int) ≤ t ∧ t < 253370678400000000000 := h
  omega

/-- The date of such an instant has a year of four digits. -/
theorem ClockTime.local (h : ClockTime t) (loc : Location) :
    -62135596800 ≤ t / 1000000000 + loc.offset (t / 1000000000) ∧
      t / 1000000000 + loc.offset (t / 1000000000) < 253370764800 := by
  have hsec := h.sec
  have hday := loc.day (t / 1000000000)
  omega

/-- **An instant is read back from its text.** -/
theorem parseRFC3339_formatRFC3339Nano (h : ClockTime t) :
    parseRFC3339 (formatRFC3339Nano loc t) = some t := by
  have hnanos : (t % 1000000000).toNat < 1000000000 := by omega
  refine (parseRFC3339_appendClock (h.local loc).1 (h.local loc).2 (readNano_appendNano hnanos _)
    (readZone_appendZone (loc.minutes _ h.sec.1) (loc.day _))).trans (congrArg some ?_)
  omega

theorem marshalTime_eq_some (h : ClockTime t) :
    marshalTime loc t = some (0x22 :: (formatRFC3339Nano loc t ++ [0x22])) := by
  have hhyphen : (formatRFC3339Nano loc t)[4]? = some 0x2D := by
    obtain ⟨hyear, hyear'⟩ := h.local loc
    unfold formatRFC3339Nano appendClock
    dsimp only
    generalize t / 1000000000 + loc.offset (t / 1000000000) = sec at hyear hyear' ⊢
    obtain ⟨hy, hy'⟩ := year_civilDate (sec / 86400 + 719162) (by omega) (by omega)
    generalize (civilDate (sec / 86400 + 719162)).year = year at hy hy' ⊢
    obtain ⟨year, rfl⟩ := Int.eq_ofNat_of_zero_le (Int.le_trans (by decide) hy)
    have hlength : (appendInt (year : Int) 4).length = 4 := length_appendInt (by decide) (by omega)
    rw [getElem?_append_right (by omega), hlength]
    rfl
  have hday := loc.day (t / 1000000000)
  unfold marshalTime
  dsimp only
  rw [if_neg (not_not.mpr hhyphen), if_neg (by omega)]

/-- **A time in JSON is read back.** -/
theorem unmarshalTime_quoted (h : ClockTime t) (parse : Bytes → Option Instant) (old : Instant) :
    unmarshalTime parse old (0x22 :: (formatRFC3339Nano loc t ++ [0x22])) = some t := by
  have hnull : 0x22 :: (formatRFC3339Nano loc t ++ [0x22]) ≠ ascii "null" := fun heq =>
    absurd (cons.inj heq).1 (by decide)
  unfold unmarshalTime
  rw [if_neg hnull, if_neg, tail_cons, dropLast_concat, parseRFC3339_formatRFC3339Nano h]
  · rfl
  · simp [getLast?_cons]

end

/-! ### The characters of the text -/

def isTimeChar (c : UInt8) : Bool := isDigit c || (ascii "-:TZ.+").contains c

theorem all_appendInt (x : Int) (width : Nat) : (appendInt x width).all isTimeChar = true := by
  have hdigits : (formatNat x.natAbs).all isTimeChar = true := all_eq_true.mpr fun c hc => by
    rw [isTimeChar, isDigit_of_mem_formatNat hc, Bool.true_or]
  have hzero : isTimeChar 0x30 = true := by decide
  rw [appendInt, all_append, all_append, hdigits, all_replicate, hzero]
  split <;> simp
  decide

theorem all_appendNano (nanos : Nat) : (appendNano nanos).all isTimeChar = true := by
  unfold appendNano
  split
  · rfl
  · exact all_eq_true.mpr (forall_mem_cons.mpr ⟨by decide, fun c hc =>
      all_eq_true.mp (all_appendInt _ _) c (( rdropWhile_prefix _ _).subset hc)⟩)

theorem all_appendZone (offset : Int) : (appendZone offset).all isTimeChar = true := by
  unfold appendZone
  split
  · decide
  · dsimp only
    rw [all_cons, all_append, all_cons, all_appendInt, all_appendInt]
    split <;> decide

theorem all_formatRFC3339Nano (loc : Location) (t : Instant) :
    (formatRFC3339Nano loc t).all isTimeChar = true := by
  simp only [formatRFC3339Nano, appendClock, all_cons, all_append, all_appendInt, all_appendNano,
    all_appendZone]
  decide

def eastTwo : Location := ⟨fun _ => 7200, fun _ _ => by decide, fun _ => by decide⟩

example : formatRFC3339Nano eastTwo 1767225600120000000 =
    ascii "2026-01-01T02:00:00.12+02:00" := by decide

end Pcmi.Go
