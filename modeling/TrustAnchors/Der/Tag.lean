import TrustAnchors.Ascii

/-!
# Tags

The tags an element can carry. `Tag.ofOctet?_octet` and `Tag.octet_of_ofOctet?` say that a tag and
its identifier octet determine each other; the low five bits all set would announce a longer tag,
which is not supported.
-/

namespace TrustAnchors.Der

inductive TagClass where
  | application
  | contextSpecific
  | privateUse
  deriving DecidableEq, Repr

inductive Tag where
  | boolean
  | integer
  | bitString
  | octetString
  | null
  | objectIdentifier
  | real
  | enumerated
  | utf8String
  | numericString
  | printableString
  | teletexString
  | videotexString
  | ia5String
  | utcTime
  | generalizedTime
  | visibleString
  | bmpString
  | sequence
  | set
  | tagged (tagClass : TagClass) (constructed : Bool) (number : Fin 31)
  deriving DecidableEq, Repr

namespace TagClass

/-- The two high bits of an identifier octet. -/
def bits : TagClass → UInt8
  | application => 0x40
  | contextSpecific => 0x80
  | privateUse => 0xc0

def ofOctet (b : UInt8) : TagClass :=
  if b < 0x80 then application else if b < 0xc0 then contextSpecific else privateUse

def name : TagClass → String
  | application => "APPLICATION"
  | contextSpecific => "CONTEXT-SPECIFIC"
  | privateUse => "PRIVATE"

end TagClass

namespace Tag

/-- The tag of a context number below 31. -/
def context (constructed : Bool) (number : Nat) : Tag :=
  tagged .contextSpecific constructed (Fin.ofNat 31 number)

def octet : Tag → UInt8
  | boolean => 0x01
  | integer => 0x02
  | bitString => 0x03
  | octetString => 0x04
  | null => 0x05
  | objectIdentifier => 0x06
  | real => 0x09
  | enumerated => 0x0a
  | utf8String => 0x0c
  | numericString => 0x12
  | printableString => 0x13
  | teletexString => 0x14
  | videotexString => 0x15
  | ia5String => 0x16
  | utcTime => 0x17
  | generalizedTime => 0x18
  | visibleString => 0x1a
  | bmpString => 0x1e
  | sequence => 0x30
  | set => 0x31
  | tagged tagClass constructed number =>
    tagClass.bits + (if constructed then 0x20 else 0) + UInt8.ofNat number

def universal : List Tag :=
  [boolean, integer, bitString, octetString, null, objectIdentifier, real, enumerated, utf8String,
    numericString, printableString, teletexString, videotexString, ia5String, utcTime,
    generalizedTime, visibleString, bmpString, sequence, set]

/-- The number field of an identifier octet. -/
def numberBits (b : UInt8) : Nat := (b % 32).toNat

/-- The tag of an identifier octet whose number field is below 31; none if the tag is not known. -/
def ofOctet? (b : UInt8) (h : numberBits b < 31) : Option Tag :=
  if b < 0x40 then universal.find? (·.octet = b)
  else some (tagged (.ofOctet b) (b / 32 % 2 = 1) ⟨numberBits b, h⟩)

def isConstructed : Tag → Bool
  | sequence | set => true
  | tagged _ constructed _ => constructed
  | _ => false

def name : Tag → String
  | boolean => "BOOLEAN"
  | integer => "INTEGER"
  | bitString => "BIT STRING"
  | octetString => "OCTET STRING"
  | null => "NULL"
  | objectIdentifier => "OBJECT IDENTIFIER"
  | real => "REAL"
  | enumerated => "ENUMERATED"
  | utf8String => "UTF8String"
  | numericString => "NumericString"
  | printableString => "PrintableString"
  | teletexString => "TeletexString"
  | videotexString => "VideotexString"
  | ia5String => "IA5String"
  | utcTime => "UTCTime"
  | generalizedTime => "GeneralizedTime"
  | visibleString => "VisibleString"
  | bmpString => "BMPString"
  | sequence => "SEQUENCE"
  | set => "SET"
  | tagged tagClass constructed number =>
    let form := if constructed then "constructed" else "primitive"
    s!"{tagClass.name} [{number.val}] ({form})"

theorem numberBits_octet_lt (t : Tag) : numberBits t.octet < 31 := by
  cases t with
  | tagged c f n =>
    have tags : ∀ (f : Bool) (n : Fin 31), numberBits (tagged c f n).octet < 31 := by
      cases c <;> decide
    exact tags f n
  | _ => decide

theorem ofOctet?_octet (t : Tag) : ofOctet? t.octet t.numberBits_octet_lt = some t := by
  cases t with
  | tagged c f n =>
    have tags : ∀ (f : Bool) (n : Fin 31),
        ofOctet? (tagged c f n).octet (numberBits_octet_lt _) = some (tagged c f n) := by
      cases c <;> decide
    exact tags f n
  | _ => decide

theorem octet_of_ofOctet? {b : UInt8} {h : numberBits b < 31} {t : Tag}
    (e : ofOctet? b h = some t) : t.octet = b := by
  unfold ofOctet? at e
  split at e
  · simpa using List.find?_some e
  · next hb =>
    have octets : ∀ k : Fin 256, (h : numberBits (UInt8.ofNat k) < 31) → ¬ UInt8.ofNat k < 0x40 →
        (tagged (.ofOctet (UInt8.ofNat k)) (UInt8.ofNat k / 32 % 2 = 1)
          ⟨numberBits (UInt8.ofNat k), h⟩).octet = UInt8.ofNat k := by decide +kernel
    have hk := octets ⟨b.toNat, b.toNat_lt⟩
    simp only [UInt8.ofNat_toNat] at hk
    rw [← Option.some.inj e]
    exact hk h hb

end Tag

end TrustAnchors.Der
