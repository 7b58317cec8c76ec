import LineScope.Toml.Reader

/-! Dates and times. -/
namespace LineScope.Toml

def fixedDigits (count : Nat) : Reader Nat := do
  let cs ← Reader.ahead
  let digits := (cs.take count).takeWhile Char.isDigit
  if digits.length < count then failure
  Reader.skip count
  return digits.foldl (fun n c => 10 * n + (c.toNat - '0'.toNat)) 0

def isLeapYear (year : Nat) : Bool := year % 4 == 0 && (year % 100 != 0 || year % 400 == 0)

def daysIn (year month : Nat) : Nat :=
  if month = 2 then if isLeapYear year then 29 else 28
  else if month = 4 ∨ month = 6 ∨ month = 9 ∨ month = 11 then 30
  else 31

def date : Reader Unit := do
  let year ← fixedDigits 4
  Reader.expect ['-']
  let month ← fixedDigits 2
  Reader.expect ['-']
  let day ← fixedDigits 2
  unless 1 ≤ month ∧ month ≤ 12 ∧ 1 ≤ day ∧ day ≤ daysIn year month do failure

def fraction : Reader Unit := do
  match ← Reader.ahead with
  | '.' :: _ =>
    Reader.skip 1
    if (← Reader.takeAll Char.isDigit).isEmpty then failure
  | _ => return

/-- A time of day as `07:32:00.5`. The seconds may be left out, and there may be a leap second. -/
def time : Reader Unit := do
  let hour ← fixedDigits 2
  Reader.expect [':']
  let minute ← fixedDigits 2
  unless hour ≤ 23 ∧ minute ≤ 59 do failure
  match ← Reader.ahead with
  | ':' :: _ =>
    Reader.skip 1
    let second ← fixedDigits 2
    unless second ≤ 60 do failure
    fraction
  | _ => return

def offset : Reader Unit := do
  match ← Reader.ahead with
  | [] => return
  | c :: _ =>
    Reader.skip 1
    if c = 'Z' ∨ c = 'z' then return
    unless c = '+' ∨ c = '-' do failure
    let hour ← fixedDigits 2
    Reader.expect [':']
    let minute ← fixedDigits 2
    unless hour ≤ 23 ∧ minute ≤ 59 do failure

def dateAndTime : Reader Unit := do
  date
  match ← Reader.ahead with
  | [] => return
  | c :: _ =>
    unless c = 'T' ∨ c = 't' ∨ c = ' ' do failure
    Reader.skip 1
    time
    offset

def Reader.acceptsAll (reader : Reader Unit) (cs : List Char) : Bool :=
  match reader cs with
  | some ((), []) => true
  | _ => false

def isMoment (word : List Char) : Bool := time.acceptsAll word || dateAndTime.acceptsAll word

end LineScope.Toml
