import Hyperfetch.Text
import Hyperfetch.Torrent.Bencode
import Hyperfetch.Weft.Calendar
import Hyperfetch.Weft.Text

/-!
# HTTP dates (`parse_http_date`, `http_date`)

Seconds as an IMF-fixdate and back. The machine's arithmetic is exact where its sums
stay in `i64`, so it is that of the integers. `days_from_civil` numbers the calendar's
days (`daysFromCivil_eq`) and `civil_from_days` finds the day of a number
(`civilFromDays_found`), each for every integer; the rest follows from the calendar.
-/

namespace Hyperfetch

open Weft

def monthNames : List Text :=
  ["Jan", "Feb", "Mar", "Apr", "May", "Jun", "Jul", "Aug", "Sep", "Oct", "Nov", "Dec"].map String.toList

def dayNames : List Text := ["Thu", "Fri", "Sat", "Sun", "Mon", "Tue", "Wed"].map String.toList

/-- The civil date so many days after 1970-01-01. -/
def civilFromDays (days : Int) : Int × Int × Int :=
  let z := days + 719468
  let era := z / 146097
  let doe := z - era * 146097
  let yoe := (doe - doe.tdiv 1460 + doe.tdiv 36524 - doe.tdiv 146096).tdiv 365
  let doy := doe - (365 * yoe + yoe.tdiv 4 - yoe.tdiv 100)
  let mp := (5 * doy + 2).tdiv 153
  let day := doy - (153 * mp + 2).tdiv 5 + 1
  let month := if mp < 10 then mp + 3 else mp - 9
  (yoe + era * 400 + (if month ≤ 2 then 1 else 0), month, day)

/-- Days from 1970-01-01 to the civil date. -/
def daysFromCivil (year month day : Int) : Int :=
  let y := if month ≤ 2 then year - 1 else year
  let era := y / 400
  let yoe := y - era * 400
  let doy := (153 * (month + 9).tmod 12 + 2).tdiv 5 + day - 1
  let doe := yoe * 365 + yoe.tdiv 4 - yoe.tdiv 100 + doy
  era * 146097 + doe - 719468

/-- `split_whitespace`. -/
def words (text : Text) : List Text := (text.splitOnP isWhite).filter (!·.isEmpty)

/-- Parses an IMF-fixdate into Unix seconds. -/
def parseHttpDate (value : Text) : Option Nat :=
  match words value with
  | _ :: day :: monthName :: year :: clock :: zone :: _ => do
    let day ← Torrent.parseI64 day
    let month ← monthNames.findIdx? fun m => eqIgnoreAsciiCase m monthName
    let year ← (Torrent.parseI64 year).filter fun y => 1970 ≤ y ∧ y ≤ 9999
    match (clock.splitOn ':').map Torrent.parseI64 with
    | some h :: some m :: some s :: _ =>
      if zone = "GMT".toList ∧ (1 ≤ day ∧ day ≤ 31) ∧ (0 ≤ h ∧ h < 24) ∧ (0 ≤ m ∧ m < 60) ∧ 0 ≤ s ∧ s ≤ 60 then
        let total := daysFromCivil year (month + 1) day * 86400 + h * 3600 + m * 60 + s
        if 0 ≤ total then some total.toNat else none
      else none
    | _ => none
  | _ => none

/-- What stands of a date behind its weekday. -/
def clockText (time : Nat) : Text :=
  padded 2 (time / 3600) ++ ':' :: (padded 2 (time / 60 % 60) ++ ':' :: padded 2 (time % 60))

/-- Unix seconds as an IMF-fixdate; `none` where an index would be out of bounds. -/
def httpDate (secs : Nat) : Option Text := do
  let days : Int := (secs / 86400 : Nat)
  let time := secs % 86400
  let (year, month, day) := civilFromDays days
  let weekday ← dayNames[(days % 7).toNat]?
  let name ← monthNames[(month - 1).toNat]?
  some (weekday ++ ',' :: ' ' :: (padded 2 day.toNat ++ ' ' :: (name ++ ' ' :: (padded 4 year.toNat ++
    ' ' :: (clockText time ++ ' ' :: "GMT".toList)))))

/-! ## The calendar -/

open Calendar

theorem daysFromCivil_eq (year : Int) {month : Int} (hlo : 1 ≤ month) (hhi : month ≤ 12) (day : Int) :
    daysFromCivil year month day = dayNumber year month day - 719468 := by
  have hmonth : (month + 9).tmod 12 = marchMonth month := by
    rw [Int.tmod_eq_emod_of_nonneg (by omega)]
    unfold marchMonth
    split
    · omega
    · omega
  have hnonneg : 0 ≤ marchMonth month := by
    rw [← hmonth]
    exact Int.tmod_nonneg _ (by omega)
  have hyear : marchYear year month = if month ≤ 2 then year - 1 else year := rfl
  have hyoe : 0 ≤ marchYear year month - marchYear year month / 400 * 400 := by omega
  unfold daysFromCivil
  dsimp only
  rw [hmonth, ← hyear]
  simp only [Int.tdiv_eq_ediv_of_nonneg hyoe, Int.tdiv_eq_ediv_of_nonneg (show 0 ≤ 153 * marchMonth month + 2 by omega)]
  unfold dayNumber yearStart monthStart
  omega

/-- The year of a day in its 400 years, as the code computes it. -/
theorem years_of_days (p : Place) :
    (p.days - p.days / 1460 + p.days / 36524 - p.days / 146096) / 365 = p.years := by
  obtain ⟨c, q, r, d, hc, hq, hr, hd, hle⟩ := p
  unfold Place.years Place.days
  dsimp only
  by_cases hlast : 36524 * c + 1461 * q + 365 * r + d = 146096
  · rw [hlast]
    have hyear : (146096 - (146096 : Int) / 1460 + 146096 / 36524 - 146096 / 146096) / 365 = 399 := rfl
    omega
  · -- 1460 is a day short of four years, which adds up to no more than one
    have hcentury : (36524 * c + 1461 * q + 365 * r + d) / 36524 = c := by omega
    have hera : (36524 * c + 1461 * q + 365 * r + d) / 146096 = 0 := by omega
    have hyears : (36524 * c + 1461 * q + 365 * r + d) / 1460 = 25 * c + q + (24 * c + q + 365 * r + d) / 1460 := by omega
    omega

theorem day_of_days (p : Place) : p.days - (365 * p.years + p.years / 4 - p.years / 100) = p.day := by
  have hyears := p.years_mem
  have hstart := p.yearStart_years 0
  unfold yearStart at hstart
  omega

/-- What the code computes of a day's place. -/
theorem civilFromDays_eq {days : Int} {p : Place} (hp : p.days = (days + 719468) % 146097) :
    civilFromDays days =
      (p.years + 400 * ((days + 719468) / 146097) + (if civilMonth (monthOf p.day) ≤ 2 then 1 else 0),
        civilMonth (monthOf p.day), p.day - monthStart (monthOf p.day) + 1) := by
  have hdoe : days + 719468 - (days + 719468) / 146097 * 146097 = p.days := by omega
  have hnonneg : 0 ≤ p.days := by omega
  have hsum : 0 ≤ p.days - p.days / 1460 + p.days / 36524 - p.days / 146096 := by omega
  have hyears := p.years_mem
  have hday := p.day_nonneg
  have hmp : 0 ≤ monthOf p.day := by
    unfold monthOf
    omega
  have hmonth : (5 * p.day + 2).tdiv 153 = monthOf p.day := Int.tdiv_eq_ediv_of_nonneg (by omega)
  have hstart : (153 * monthOf p.day + 2).tdiv 5 = monthStart (monthOf p.day) := Int.tdiv_eq_ediv_of_nonneg (by omega)
  have hera : p.years + (days + 719468) / 146097 * 400 = p.years + 400 * ((days + 719468) / 146097) := by omega
  have hyoe : (p.days - p.days.tdiv 1460 + p.days.tdiv 36524 - p.days.tdiv 146096).tdiv 365 = p.years := by
    simp only [Int.tdiv_eq_ediv_of_nonneg hnonneg, Int.tdiv_eq_ediv_of_nonneg hsum]
    exact years_of_days p
  have hdoy : p.days - (365 * p.years + p.years.tdiv 4 - p.years.tdiv 100) = p.day := by
    simp only [Int.tdiv_eq_ediv_of_nonneg hyears.1]
    exact day_of_days p
  unfold civilFromDays
  simp only [hdoe, hyoe, hdoy, hmonth, hstart, hera]
  rfl

/-- The day of a number is found. -/
theorem civilFromDays_found (days : Int) :
    Valid (civilFromDays days).1 (civilFromDays days).2.1 (civilFromDays days).2.2 ∧
      dayNumber (civilFromDays days).1 (civilFromDays days).2.1 (civilFromDays days).2.2 = days + 719468 := by
  obtain ⟨p, hp⟩ := Place.exists_of_days (n := (days + 719468) % 146097) (by omega) (by omega)
  have hstart := p.yearStart_years ((days + 719468) / 146097)
  obtain ⟨hvalid, hnumber⟩ := date_of_day p.day_nonneg (p.day_lt ((days + 719468) / 146097)) rfl
  rw [civilFromDays_eq hp]
  refine ⟨hvalid, ?_⟩
  dsimp only
  rw [hnumber, hstart]
  omega

/-- Every day number is that of its date. -/
theorem daysFromCivil_civilFromDays (days : Int) :
    daysFromCivil (civilFromDays days).1 (civilFromDays days).2.1 (civilFromDays days).2.2 = days := by
  obtain ⟨hvalid, hnumber⟩ := civilFromDays_found days
  rw [daysFromCivil_eq _ hvalid.month_pos hvalid.month_le, hnumber]
  omega

/-- Every date is that of its day number. -/
theorem civilFromDays_daysFromCivil {year month day : Int} (h : Valid year month day) :
    civilFromDays (daysFromCivil year month day) = (year, month, day) := by
  obtain ⟨hvalid, hnumber⟩ := civilFromDays_found (daysFromCivil year month day)
  have hsame := daysFromCivil_eq year h.month_pos h.month_le day
  obtain ⟨hyear, hmonth, hday⟩ := dayNumber_inj hvalid h (by omega)
  rw [Prod.ext_iff, Prod.ext_iff]
  exact ⟨hyear, hmonth, hday⟩

theorem daysFromCivil_lt {year month day year' month' day' : Int} (h : Valid year month day)
    (h' : Valid year' month' day') (hbefore : Before year month day year' month' day') :
    daysFromCivil year month day < daysFromCivil year' month' day' := by
  have hlt := dayNumber_lt h h' hbefore
  rw [daysFromCivil_eq year h.month_pos h.month_le, daysFromCivil_eq year' h'.month_pos h'.month_le]
  omega

/-! ## The text -/

theorem words_cons {word : Text} (hne : word ≠ []) (hword : ∀ c ∈ word, isWhite c = false) (rest : Text) :
    words (word ++ ' ' :: rest) = word :: words rest := by
  unfold words
  rw [List.splitOnP_append_cons_of_forall_mem hword ' ' rfl, List.filter_cons_of_pos]
  cases word with
  | nil => exact absurd rfl hne
  | cons c word => rfl

theorem words_single {word : Text} (hne : word ≠ []) (hword : ∀ c ∈ word, isWhite c = false) : words word = [word] := by
  unfold words
  rw [List.splitOnP_eq_singleton hword]
  cases word with
  | nil => exact absurd rfl hne
  | cons c word => rfl

/-- Digits are read as the number they stand for: a sign is none of them. -/
theorem parseI64_decimal {text : Text} {n : Nat} (h : Decimal text n) (hle : n ≤ 2 ^ 63 - 1) :
    Torrent.parseI64 text = some (n : Int) := by
  have hread : readDecimal (2 ^ 63 - 1) text = some n := readDecimal_eq_some.mpr ⟨h, hle⟩
  unfold Torrent.parseI64
  split
  · exact absurd (h.all '-' List.mem_cons_self) (by decide)
  · exact absurd (h.all '+' List.mem_cons_self) (by decide)
  · rw [hread]
    rfl

theorem padded_plain (width n : Nat) : padded width n ≠ [] ∧ ∀ c ∈ padded width n, isWhite c = false :=
  ⟨(decimal_padded width n).nonempty, fun c hc => isWhite_of_isDigit ((decimal_padded width n).all c hc)⟩

theorem plain_of_all {text : Text} (h : text.all (!isWhite ·) = true) (c : Char) (hc : c ∈ text) : isWhite c = false := by
  simpa using List.all_eq_true.mp h c hc

theorem monthNames_plain {name : Text} (h : name ∈ monthNames) : name ≠ [] ∧ ∀ c ∈ name, isWhite c = false := by
  have hall : monthNames.all (fun name => !name.isEmpty && name.all (!isWhite ·)) = true := by rfl
  have hname := List.all_eq_true.mp hall name h
  rw [Bool.and_eq_true] at hname
  refine ⟨?_, plain_of_all hname.2⟩
  rintro rfl
  exact absurd hname.1 (by decide)

theorem dayNames_plain {name : Text} (h : name ∈ dayNames) : ∀ c ∈ name, isWhite c = false := by
  have hall : dayNames.all (fun name => name.all (!isWhite ·)) = true := by rfl
  exact plain_of_all (List.all_eq_true.mp hall name h)

/-- A month is found by its own name first. -/
theorem monthNames_found : ∀ i < 12, monthNames.findIdx? (fun m => eqIgnoreAsciiCase m (monthNames.getD i [])) = some i := by
  decide +kernel

theorem clockText_plain (time : Nat) : clockText time ≠ [] ∧ ∀ c ∈ clockText time, isWhite c = false := by
  constructor
  · intro hnil
    exact (padded_plain 2 _).1 (List.append_eq_nil_iff.mp hnil).1
  · intro c hc
    simp only [clockText, List.mem_append, List.mem_cons] at hc
    rcases hc with hc | rfl | hc | rfl | hc
    · exact (padded_plain 2 _).2 c hc
    · rfl
    · exact (padded_plain 2 _).2 c hc
    · rfl
    · exact (padded_plain 2 _).2 c hc

theorem splitOn_clockText (time : Nat) :
    (clockText time).splitOn ':' = [padded 2 (time / 3600), padded 2 (time / 60 % 60), padded 2 (time % 60)] := by
  have hcolon (n : Nat) : ':' ∉ padded 2 n := (decimal_padded 2 n).not_mem (by decide)
  rw [clockText, List.splitOn_append_cons_self_of_not_mem (hcolon _), List.splitOn_append_cons_self_of_not_mem (hcolon _),
    List.splitOn_eq_singleton (hcolon _)]

/-- The words of a date as it is written. -/
theorem words_date {weekday name : Text} (hweekday : weekday ∈ dayNames) (hname : name ∈ monthNames)
    (day year time : Nat) :
    words (weekday ++ ',' :: ' ' :: (padded 2 day ++ ' ' :: (name ++ ' ' :: (padded 4 year ++
      ' ' :: (clockText time ++ ' ' :: "GMT".toList))))) =
      [weekday ++ [','], padded 2 day, name, padded 4 year, clockText time, "GMT".toList] := by
  have hcomma : ∀ c ∈ weekday ++ [','], isWhite c = false := by
    intro c hc
    rcases List.mem_append.mp hc with hc | hc
    · exact dayNames_plain hweekday c hc
    · rw [List.mem_singleton.mp hc]
      rfl
  obtain ⟨hne, hplain⟩ := monthNames_plain hname
  have hfirst := words_cons (by simp) hcomma (padded 2 day ++ ' ' :: (name ++ ' ' :: (padded 4 year ++
      ' ' :: (clockText time ++ ' ' :: "GMT".toList))))
  rw [List.append_assoc, List.singleton_append] at hfirst
  rw [hfirst, words_cons (padded_plain 2 day).1 (padded_plain 2 day).2, words_cons hne hplain,
    words_cons (padded_plain 4 year).1 (padded_plain 4 year).2, words_cons (clockText_plain time).1 (clockText_plain time).2,
    words_single (by simp) (plain_of_all rfl)]

/-- The last second of the year 9999. -/
def lastSecond : Nat := 253402300799

/-- Between 1970 and the end of 9999. -/
theorem year_of_days {days : Int} (hlo : 0 ≤ days) (hhi : days ≤ 2932896) :
    1970 ≤ (civilFromDays days).1 ∧ (civilFromDays days).1 ≤ 9999 := by
  obtain ⟨hvalid, hnumber⟩ := civilFromDays_found days
  have hfirst : Valid 1970 1 1 := ⟨by decide, by decide, by decide, by decide⟩
  have hlast : Valid 9999 12 31 := ⟨by decide, by decide, by decide, by decide⟩
  have hstart : dayNumber 1970 1 1 = 719468 := by decide
  have hend : dayNumber 9999 12 31 = 3652364 := by decide
  constructor
  · by_contra hearly
    have hlt := dayNumber_lt hvalid hfirst (Or.inl (by omega))
    omega
  · by_contra hlate
    have hlt := dayNumber_lt hlast hvalid (Or.inl (by omega))
    omega

theorem monthDays_le (year month : Int) : monthDays year month ≤ 31 := by
  unfold monthDays
  split
  · split
    · omega
    · omega
  · split
    · omega
    · omega

/-- A date that was written is read back. -/
theorem parse_httpDate {secs : Nat} (h : secs ≤ lastSecond) :
    ∃ text, httpDate secs = some text ∧ parseHttpDate text = some secs := by
  have hlast : lastSecond = 253402300799 := rfl
  obtain ⟨hvalid, _⟩ := civilFromDays_found ((secs / 86400 : Nat) : Int)
  have hyear := @year_of_days ((secs / 86400 : Nat) : Int) (by omega) (by omega)
  have hback := daysFromCivil_civilFromDays ((secs / 86400 : Nat) : Int)
  have hmax := monthDays_le (civilFromDays ((secs / 86400 : Nat) : Int)).1 (civilFromDays ((secs / 86400 : Nat) : Int)).2.1
  unfold httpDate
  dsimp only
  generalize civilFromDays ((secs / 86400 : Nat) : Int) = date at hvalid hyear hback hmax ⊢
  obtain ⟨year, month, day⟩ := date
  dsimp only at hvalid hyear hback hmax ⊢
  obtain ⟨hmlo, hmhi, hdlo, hdhi⟩ := hvalid
  have hdays : (((secs / 86400 : Nat) : Int) % 7).toNat < dayNames.length := by
    show _ < 7
    omega
  have hmonths : (month - 1).toNat < monthNames.length := by
    show _ < 12
    omega
  rw [List.getElem?_eq_getElem hdays, List.getElem?_eq_getElem hmonths]
  refine ⟨_, rfl, ?_⟩
  have hfound := monthNames_found (month - 1).toNat hmonths
  rw [List.getD_eq_getElem _ _ hmonths] at hfound
  have hnumber (width n : Nat) (hn : n < 10000) : Torrent.parseI64 (padded width n) = some (n : Int) :=
    parseI64_decimal (decimal_padded width n) (by omega)
  have hyears : ((year.toNat : Int)) = year := Int.toNat_of_nonneg (by omega)
  have hday : ((day.toNat : Int)) = day := Int.toNat_of_nonneg (by omega)
  have hmonth : (((month - 1).toNat : Int)) + 1 = month := by omega
  unfold parseHttpDate
  rw [words_date (List.getElem_mem hdays) (List.getElem_mem hmonths)]
  dsimp only
  rw [hnumber 2 day.toNat (by omega), hfound, hnumber 4 year.toNat (by omega), hyears, hday, splitOn_clockText]
  have hfilter : (some year).filter (fun y => decide (1970 ≤ y ∧ y ≤ 9999)) = some year := by
    rw [Option.filter_some, decide_eq_true hyear]
    rfl
  have hclock : [padded 2 (secs % 86400 / 3600), padded 2 (secs % 86400 / 60 % 60), padded 2 (secs % 86400 % 60)].map
      Torrent.parseI64 = [some ((secs % 86400 / 3600 : Nat) : Int), some ((secs % 86400 / 60 % 60 : Nat) : Int),
        some ((secs % 86400 % 60 : Nat) : Int)] := by
    rw [List.map_cons, List.map_cons, List.map_cons, List.map_nil, hnumber _ _ (by omega), hnumber _ _ (by omega),
      hnumber _ _ (by omega)]
  rw [hfilter, hclock]
  simp only [Option.bind_eq_bind, Option.bind_some, hmonth, hback]
  rw [if_pos ⟨trivial, ⟨hdlo, by omega⟩, by omega, by omega, by omega, by omega⟩, if_pos (by omega)]
  congr 1
  omega

/-- Dates survive the round trip, day numbers and dates are each other's inverses,
and days are numbered in the calendar's order. -/
theorem dates_round_trip :
    (∀ secs ≤ lastSecond, ∃ text, httpDate secs = some text ∧ parseHttpDate text = some secs) ∧
      (∀ days, Valid (civilFromDays days).1 (civilFromDays days).2.1 (civilFromDays days).2.2 ∧
        daysFromCivil (civilFromDays days).1 (civilFromDays days).2.1 (civilFromDays days).2.2 = days) ∧
      (∀ year month day, Valid year month day →
        civilFromDays (daysFromCivil year month day) = (year, month, day)) ∧
      ∀ year month day year' month' day', Valid year month day → Valid year' month' day' →
        Before year month day year' month' day' → daysFromCivil year month day < daysFromCivil year' month' day' :=
  ⟨fun _ h => parse_httpDate h, fun days => ⟨(civilFromDays_found days).1, daysFromCivil_civilFromDays days⟩,
    fun _ _ _ h => civilFromDays_daysFromCivil h, fun _ _ _ _ _ _ h h' hbefore => daysFromCivil_lt h h' hbefore⟩

/-- The 29th of February 2000 comes before the first of March. -/
theorem dates_round_trip_leap : daysFromCivil 2000 2 29 < daysFromCivil 2000 3 1 :=
  dates_round_trip.2.2.2 2000 2 29 2000 3 1 ⟨by decide, by decide, by decide, by decide⟩
    ⟨by decide, by decide, by decide, by decide⟩ (Or.inr ⟨rfl, Or.inl (by decide)⟩)

end Hyperfetch
