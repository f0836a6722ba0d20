import CronSchedule.Calendar.DateTime
import CronSchedule.Text.Decimal

/-!
# Writing times

A year from 0 to 9999 has four digits; any other has a sign and at least four. The rest of a date and the
time of day have two digits each. A fraction of a second is written in whole milliseconds where that loses
nothing, else in microseconds, else in nanoseconds, and a leap second is second 60.
-/

namespace CronSchedule

def yearText (year : Int) : List Char :=
  if 0 ≤ year ∧ year ≤ 9999 then padded 4 year.natAbs
  else (if year < 0 then '-' else '+') :: padded 4 year.natAbs

/-- The part of a second below the point, with the point, or nothing for a whole second. -/
def fractionText (nanosecond : Nat) : List Char :=
  if nanosecond = 0 then []
  else if nanosecond % 1000000 = 0 then '.' :: padded 3 (nanosecond / 1000000)
  else if nanosecond % 1000 = 0 then '.' :: padded 6 (nanosecond / 1000)
  else '.' :: padded 9 nanosecond

def Date.text (d : Date) : List Char :=
  yearText d.year ++ '-' :: padded 2 d.month ++ '-' :: padded 2 d.day

namespace DateTime

def clockText (t : DateTime) : List Char :=
  padded 2 t.hour ++ ':' :: padded 2 t.minute

def secondText (t : DateTime) : List Char :=
  padded 2 (t.second + t.nanosecond / nanoseconds) ++ fractionText (t.nanosecond % nanoseconds)

def text (t : DateTime) : List Char :=
  t.date.text ++ ' ' :: t.clockText ++ ':' :: t.secondText

/-- The minute, with a `T` between date and time of day. -/
def minuteText (t : DateTime) : List Char :=
  t.date.text ++ 'T' :: t.clockText

/-- The argument that passes a minute on to another program: the seconds are always zero. -/
def argument (t : DateTime) : List Char :=
  "--time=".toList ++ t.minuteText ++ ":00".toList

end DateTime

end CronSchedule
