import PathQuery.Journal

/-! Points in time as text: date and time of day in universal time, to the microsecond. -/
namespace PathQuery.Command

def padded (width n : Nat) : String :=
  let digits := Nat.toDigits 10 n
  String.ofList (List.replicate (width - digits.length) '0' ++ digits)

structure Date where
  year : Nat
  month : Nat
  day : Nat
  deriving DecidableEq, Repr

def dateOf (days : Nat) : Date :=
  -- Years are taken to begin in March, so that a leap day is the last of its year; 400 of them have 146097 days.
  let shifted := days + 719468
  let era := shifted / 146097
  let dayOfEra := shifted % 146097
  let yearOfEra := (dayOfEra - dayOfEra / 1460 + dayOfEra / 36524 - dayOfEra / 146096) / 365
  let dayOfYear := dayOfEra - (365 * yearOfEra + yearOfEra / 4 - yearOfEra / 100)
  let fromMarch := (5 * dayOfYear + 2) / 153
  let month := if fromMarch < 10 then fromMarch + 3 else fromMarch - 9
  { year := yearOfEra + era * 400 + (if month ≤ 2 then 1 else 0)
    month := month
    day := dayOfYear - (153 * fromMarch + 2) / 5 + 1 }

def stampOf (micros : Nat) : String :=
  let seconds := micros / 1000000
  let date := dateOf (seconds / 86400)
  let time := seconds % 86400
  padded 4 date.year ++ "-" ++ padded 2 date.month ++ "-" ++ padded 2 date.day ++ "T" ++
    padded 2 (time / 3600) ++ ":" ++ padded 2 (time / 60 % 60) ++ ":" ++ padded 2 (time % 60) ++ "." ++
    padded 6 (micros % 1000000) ++ "+00:00"

end PathQuery.Command
