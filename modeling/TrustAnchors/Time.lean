import TrustAnchors.Der.Element

/-!
# Times

A moment is a calendar date from 1970 to 9999 and a time of day without leap seconds. A time is
written with two digits of the year (1950 to 2049) or with four.
-/

namespace TrustAnchors

open Der

def isLeapYear (year : Nat) : Bool := year % 4 = 0 && (year % 100 ≠ 0 || year % 400 = 0)

def daysInMonth (year month : Nat) : Nat :=
  if month = 2 then if isLeapYear year then 29 else 28
  else if month ∈ [4, 6, 9, 11] then 30
  else 31

structure Moment where
  year : Nat
  month : Nat
  day : Nat
  hour : Nat
  minute : Nat
  second : Nat
  deriving DecidableEq, Repr

namespace Moment

structure Valid (t : Moment) : Prop where
  year : 1970 ≤ t.year ∧ t.year ≤ 9999
  month : 1 ≤ t.month ∧ t.month ≤ 12
  day : 1 ≤ t.day ∧ t.day ≤ daysInMonth t.year t.month
  time : t.hour < 24 ∧ t.minute < 60 ∧ t.second < 60

instance (t : Moment) : Decidable t.Valid :=
  decidable_of_iff ((1970 ≤ t.year ∧ t.year ≤ 9999) ∧ (1 ≤ t.month ∧ t.month ≤ 12) ∧
      (1 ≤ t.day ∧ t.day ≤ daysInMonth t.year t.month) ∧
      t.hour < 24 ∧ t.minute < 60 ∧ t.second < 60)
    ⟨fun h => ⟨h.1, h.2.1, h.2.2.1, h.2.2.2⟩, fun h => ⟨h.1, h.2, h.3, h.4⟩⟩

def twoDigits (n : Nat) : Octets := [UInt8.ofNat (0x30 + n / 10 % 10), UInt8.ofNat (0x30 + n % 10)]

def twoDigits? (a b : UInt8) : Option Nat :=
  if Ascii.isDigit a && Ascii.isDigit b then some ((a - 0x30).toNat * 10 + (b - 0x30).toNat)
  else none

/-- Ten digits from the month to the second, and the letter Z. -/
def withinYear (t : Moment) : Octets :=
  [t.month, t.day, t.hour, t.minute, t.second].flatMap twoDigits ++ [0x5a]

def ofWithinYear? (year : Nat) : Octets → Option Moment
  | [m₁, m₂, d₁, d₂, h₁, h₂, n₁, n₂, s₁, s₂, 0x5a] => do
    let t : Moment := ⟨year, ← twoDigits? m₁ m₂, ← twoDigits? d₁ d₂, ← twoDigits? h₁ h₂,
      ← twoDigits? n₁ n₂, ← twoDigits? s₁ s₂⟩
    guard t.Valid
    return t
  | _ => none

/-- Date and time of day around the letter T. -/
def text (t : Moment) : String :=
  let digits := fun n => String.ofList (Ascii.chars (twoDigits n))
  String.join [digits (t.year / 100), digits t.year, "-", digits t.month, "-", digits t.day, "T",
    digits t.hour, ":", digits t.minute, ":", digits t.second, "Z"]

end Moment

inductive Time where
  | utc (moment : Moment) (valid : moment.Valid) (year_le : moment.year ≤ 2049)
  | general (moment : Moment) (valid : moment.Valid)
  deriving DecidableEq, Repr

namespace Time

def moment : Time → Moment
  | utc t _ _ => t
  | general t _ => t

def content : Time → Octets
  | utc t _ _ => Moment.twoDigits (t.year % 100) ++ t.withinYear
  | general t _ =>
    Moment.twoDigits (t.year / 100) ++ Moment.twoDigits (t.year % 100) ++ t.withinYear

def tag : Time → Tag
  | utc .. => .utcTime
  | general .. => .generalizedTime

def encode (t : Time) : Octets := tlv t.tag t.content

/-- Two digits from 50 on stand for a year of the twentieth century. -/
def ofUtcContent? : Octets → Option Time
  | y₁ :: y₂ :: r => do
    let y ← Moment.twoDigits? y₁ y₂
    let t ← Moment.ofWithinYear? (if 50 ≤ y then 1900 + y else 2000 + y) r
    if h : t.Valid ∧ t.year ≤ 2049 then some (utc t h.1 h.2) else none
  | _ => none

/-- The last two digits of the year have a fault of their own. -/
def ofGeneralContent : Octets → Except Error Time
  | y₁ :: y₂ :: y₃ :: y₄ :: r =>
    if r.getLast? = some 0x5a then
      match Moment.twoDigits? y₁ y₂, Moment.twoDigits? y₃ y₄ with
      | none, _ => .error (.badValue .generalizedTime)
      | some _, none => .error .dateTime
      | some c, some y =>
        match Moment.ofWithinYear? (c * 100 + y) r with
        | some t => if h : t.Valid then .ok (general t h) else .error (.badValue .generalizedTime)
        | none => .error (.badValue .generalizedTime)
    else .error (.badValue .generalizedTime)
  | _ => .error (.badValue .generalizedTime)

def utcValue (n : Nat) : Decoder Time := do
  if n = 13 then
    Decoder.ofOption (.badValue .utcTime) (ofUtcContent? (← Decoder.take n))
  else
    Decoder.fail (.badValue .utcTime)

def generalValue (n : Nat) : Decoder Time := do
  if n = 15 then
    Decoder.ofExcept (ofGeneralContent (← Decoder.take n))
  else
    Decoder.fail (.badValue .generalizedTime)

def decode : Decoder Time := do
  match ← Decoder.choice with
  | .utcTime => utcValue (← Decoder.expect .utcTime)
  | .generalizedTime => generalValue (← Decoder.expect .generalizedTime)
  | found => Decoder.fail (.unexpectedTag none found)

end Time

end TrustAnchors
