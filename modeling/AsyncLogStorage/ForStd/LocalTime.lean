import AsyncLogStorage.ForStd.Bytes

/-!
# Local times for the standard library

`struct tm` as far as it is printed, and the text that `ctime` makes of it.
-/

/-- `struct tm`, as `localtime_r` fills it in. -/
structure LocalTime where
  /-- The years since 1900. -/
  tm_year : Int
  tm_mon : Nat
  tm_mday : Nat
  tm_hour : Nat
  tm_min : Nat
  tm_sec : Nat
  mon_le : tm_mon ≤ 11
  mday_pos : 1 ≤ tm_mday
  mday_le : tm_mday ≤ 31
  hour_le : tm_hour ≤ 23
  min_le : tm_min ≤ 59
  sec_le : tm_sec ≤ 60
deriving DecidableEq, Repr

namespace LocalTime

/-- The time with these fields, each cut to its range. -/
def cut (tm_year : Int) (tm_mon tm_mday tm_hour tm_min tm_sec : Nat) : LocalTime where
  tm_year := tm_year
  tm_mon := min tm_mon 11
  tm_mday := max 1 (min tm_mday 31)
  tm_hour := min tm_hour 23
  tm_min := min tm_min 59
  tm_sec := min tm_sec 60
  mon_le := by omega
  mday_pos := by omega
  mday_le := by omega
  hour_le := by omega
  min_le := by omega
  sec_le := by omega

/-- `%.2d` -/
def twoDigits (n : Nat) : Bytes :=
  Bytes.ofString (if n < 10 then "0" ++ toString n else toString n)

/-- `%3d`, for a number of at most two digits. -/
def threeWide (n : Nat) : Bytes :=
  Bytes.ofString (if n < 10 then "  " ++ toString n else " " ++ toString n)

def wdayName (wday : Fin 7) : Bytes :=
  Bytes.ofString
    (match wday with
    | 0 => "Sun"
    | 1 => "Mon"
    | 2 => "Tue"
    | 3 => "Wed"
    | 4 => "Thu"
    | 5 => "Fri"
    | 6 => "Sat")

def monName (mon : Nat) : Bytes :=
  Bytes.ofString
    (match mon with
    | 0 => "Jan"
    | 1 => "Feb"
    | 2 => "Mar"
    | 3 => "Apr"
    | 4 => "May"
    | 5 => "Jun"
    | 6 => "Jul"
    | 7 => "Aug"
    | 8 => "Sep"
    | 9 => "Oct"
    | 10 => "Nov"
    | _ => "Dec")

/-- The text of `ctime`, for a time on the day `wday` of the week. -/
def ctime (wday : Fin 7) (t : LocalTime) : Bytes :=
  wdayName wday ++ Bytes.ofString " " ++ monName t.tm_mon ++ threeWide t.tm_mday ++
    Bytes.ofString " " ++ twoDigits t.tm_hour ++ Bytes.ofString ":" ++ twoDigits t.tm_min ++
    Bytes.ofString ":" ++ twoDigits t.tm_sec ++ Bytes.ofString " " ++
    Bytes.ofString (toString (t.tm_year + 1900)) ++ Bytes.ofString "\n"

end LocalTime
