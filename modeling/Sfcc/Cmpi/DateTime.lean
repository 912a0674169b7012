import Sfcc.Lib.Calendar
import Sfcc.Cmpi.Chars
import Sfcc.Xml.Convert

-- Dates and intervals, as texts and as microseconds.
namespace Sfcc

-- `struct tm`
structure Tm where
  sec    : ℤ := 0
  min    : ℤ := 0
  hour   : ℤ := 0
  mday   : ℤ := 0
  mon    : ℤ := 0
  year   : ℤ := 0
  isdst  : ℤ := 0
  gmtoff : ℤ := 0

-- What `tzset` sets, and the functions of the C library that depend on it.
structure TimeZone where
  timezone    : ℤ
  daylight    : ℤ
  localtime_r : ℤ → Option Tm
  mktime      : Tm → ℤ

def epoch : ℤ :=
  Calendar.yearStart 1970

def gmtime (time : ℤ) : Tm :=
  let date := Calendar.Date.ofNumber (epoch + time / 86400)
  let rest := time % 86400
  { sec  := rest % 60
    min  := rest / 60 % 60
    hour := rest / 3600
    mday := date.day
    mon  := date.month
    year := date.year - 1900 }

-- The fields do not have to be in their ranges.
def timegm (tm : Tm) : ℤ :=
  let year := 1900 + tm.year + tm.mon / 12
  let month := (tm.mon % 12).toNat
  let days := Calendar.yearStart year + Calendar.monthStart (Calendar.isLeap year) month + (tm.mday - 1) - epoch
  86400 * days + 3600 * tm.hour + 60 * tm.min + tm.sec

def TimeZone.utc : TimeZone where
  timezone    := 0
  daylight    := 0
  localtime_r := fun time => some (gmtime time)
  mktime      := timegm

-- The part of a text between two positions where it is cut.
def piece (t : Text) (i j : ℕ) : Text :=
  (t.take j).drop i

-- `strtoull` in base 10
def strtoull10 (t : Text) : UInt64 :=
  .ofNat ((scanNumber t).elim 0 fun s => strtoull s.1 s.2)

def atoi (t : Text) : ℤ :=
  (Int32.ofInt ((scanNumber t).elim 0 fun s => strtoll s.1 s.2)).toInt

-- The text is cut from its end on: at 21, 14, 12, 10, 8, 6 and 4.
def chars2bin (zone : TimeZone) (string : Text) : Except Fault UInt64 :=
  if string.length < 21 then throw .wild
  else
    let msecs := strtoull10 (piece string 15 21)
    let secs := strtoull10 (piece string 12 14)
    let secs := secs + strtoull10 (piece string 10 12) * 60
    let secs := secs + strtoull10 (piece string 8 10) * 60 * 60
    if string[21]? = some 58 then
      let secs := secs + strtoull10 (piece string 0 8) * 60 * 60 * 24
      return msecs + secs * 1000000
    else
      let tmp : Tm := {
        gmtoff := zone.timezone
        isdst  := zone.daylight
        mday   := atoi (piece string 6 8)
        mon    := atoi (piece string 4 6) - 1
        year   := atoi (piece string 0 4) - 1900 }
      return msecs + secs * 1000000 + .ofInt (zone.mktime tmp) * 1000000

-- `%8.8llu` and the like
def padded (width n : ℕ) : Text :=
  .replicate (width - (decimal n).length) 48 ++ decimal n

-- `%+4.3ld`
def signedPadded (n : ℤ) : Text :=
  (if n < 0 then 45 else 43) :: padded 3 n.natAbs

-- `%Y%m%d%H%M%S.`
def strftime (tm : Tm) : Text :=
  signedDecimal (1900 + tm.year) ++ padded 2 (tm.mon + 1).toNat ++ padded 2 tm.mday.toNat ++
    padded 2 tm.hour.toNat ++ padded 2 tm.min.toNat ++ padded 2 tm.sec.toNat ++ [46]

-- The 26 bytes of `str_time`.
def strTime (t : Text) : Except Fault Text :=
  if t.length < 26 then return t else throw .wild

def bin2chars (zone : TimeZone) (msecs : UInt64) (interval : Bool) : Except Fault Text :=
  if interval then
    let seconds := msecs / 1000000
    let useconds := msecs % 1000000
    let mins := seconds / 60
    let seconds := seconds % 60
    let hrs := mins / 60
    let mins := mins % 60
    let days := hrs / 24
    let hrs := hrs % 24
    strTime (padded 8 days.toNat ++ padded 2 hrs.toNat ++ padded 2 mins.toNat ++ padded 2 seconds.toNat ++ [46] ++
      padded 6 useconds.toNat ++ bytes ":000")
  else
    match zone.localtime_r (msecs / 1000000).toNat with
    -- Nothing is written to `str_time`.
    | none    => throw .wild
    | some tm =>
      strTime (strftime tm ++ padded 6 (msecs % 1000000).toNat ++
        signedPadded ((if zone.daylight ≠ 0 then 60 else 0) - zone.timezone.tdiv 60))

def newCMPIDateTimeFromBinary (zone : TimeZone) (time : UInt64) (interval : Bool) : Except Fault Text :=
  bin2chars zone time interval

namespace DateTime

def getBinaryFormat (zone : TimeZone) (cimDt : Text) : Except Fault UInt64 :=
  chars2bin zone cimDt

def isInterval (cimDt : Text) : Bool :=
  cimDt[21]? = some 58

end DateTime
end Sfcc
