import TrustAnchors.ObjectIdentifier

/-!
# Attribute keys

The types of attributes that have names, in the order in which names are looked up. Names are
compared without regard to case, and an attribute is printed under the shortest name of its type.
-/

namespace TrustAnchors

structure AttributeKey where
  type : ObjectIdentifier
  names : List String

namespace AttributeKey

/-- Types of the directory arc, 2.5.4. -/
def directory (n : UInt8) (names : List String) : AttributeKey := ⟨⟨[0x55, 0x04, n]⟩, names⟩

/-- Types of the pilot directory arc, 0.9.2342.19200300.100.1. -/
def pilot (n : UInt8) (names : List String) : AttributeKey :=
  ⟨⟨[0x09, 0x92, 0x26, 0x89, 0x93, 0xf2, 0x2c, 0x64, 0x01, n]⟩, names⟩

/-- Types of the mail arc, 1.2.840.113549.1.9. -/
def mail (n : UInt8) (names : List String) : AttributeKey :=
  ⟨⟨[0x2a, 0x86, 0x48, 0x86, 0xf7, 0x0d, 0x01, 0x09, n]⟩, names⟩

def table : List AttributeKey :=
  [pilot 1 ["uid", "userId"],
    pilot 2 ["textEncodedORAddress"],
    pilot 3 ["mail", "RFC822Mailbox"],
    pilot 4 ["info"],
    pilot 5 ["drink", "favouriteDrink"],
    pilot 6 ["roomNumber"],
    pilot 7 ["photo"],
    pilot 8 ["userClass"],
    pilot 9 ["host"],
    pilot 10 ["manager"],
    pilot 11 ["documentIdentifier"],
    pilot 12 ["documentTitle"],
    pilot 13 ["documentVersion"],
    pilot 14 ["documentAuthor"],
    pilot 15 ["documentLocation"],
    pilot 20 ["homePhone", "homeTelephone"],
    pilot 21 ["secretary"],
    pilot 22 ["otherMailbox"],
    pilot 23 ["lastModifiedTime"],
    pilot 24 ["lastModifiedBy"],
    pilot 25 ["DC", "domainComponent"],
    pilot 26 ["aRecord"],
    pilot 27 ["mDRecord"],
    pilot 28 ["mXRecord"],
    pilot 29 ["nSRecord"],
    pilot 30 ["sOARecord"],
    pilot 31 ["cNAMERecord"],
    pilot 37 ["associatedDomain"],
    pilot 38 ["associatedName"],
    pilot 39 ["homePostalAddress"],
    pilot 40 ["personalTitle"],
    pilot 41 ["mobile", "mobileTelephoneNumber"],
    pilot 42 ["pager", "pagerTelephoneNumber"],
    pilot 43 ["co", "friendlyCountryName"],
    pilot 44 ["uniqueIdentifier"],
    pilot 45 ["organizationalStatus"],
    pilot 46 ["janetMailbox"],
    pilot 47 ["mailPreferenceOption"],
    pilot 48 ["buildingName"],
    pilot 49 ["dSAQuality"],
    pilot 50 ["singleLevelQuality"],
    pilot 51 ["subtreeMinimumQuality"],
    pilot 52 ["subtreeMaximumQuality"],
    pilot 53 ["personalSignature"],
    pilot 54 ["dITRedirect"],
    pilot 55 ["audio"],
    pilot 56 ["documentPublisher"],
    pilot 60 ["jpegPhoto"],
    mail 1 ["email", "emailAddress"],
    mail 3 ["id-contentType"],
    mail 4 ["id-messageDigest"],
    mail 5 ["id-signingTime"],
    mail 6 ["id-countersignature"],
    mail 14 ["id-ExtensionReq"],
    mail 15 ["smimeCapabilities"],
    mail 16 ["id-smime"],
    ⟨⟨[0x2b, 0x06, 0x01, 0x04, 0x01, 0x83, 0x45, 0x07, 0x01, 0x01]⟩,
      ["rFC822ToX400Mapping", "subtree"]⟩,
    ⟨⟨[0x55, 0x04]⟩, ["id-at"]⟩,
    directory 0 ["objectClass"],
    directory 1 ["aliasedObjectName"],
    directory 2 ["knowledgeInformation"],
    directory 3 ["cn", "commonName"],
    directory 4 ["sn", "surname"],
    directory 5 ["serialNumber"],
    directory 6 ["c", "countryName"],
    directory 7 ["L", "localityName"],
    directory 8 ["stateOrProvinceName", "st"],
    directory 9 ["streetAddress", "street"],
    directory 10 ["o", "organizationName"],
    directory 11 ["ou", "organizationalUnitName"],
    directory 12 ["title"],
    directory 13 ["description"],
    directory 14 ["searchGuide"],
    directory 15 ["businessCategory"],
    directory 16 ["postalAddress"],
    directory 17 ["postalCode"],
    directory 18 ["postOfficeBox"],
    directory 19 ["physicalDeliveryOfficeName"],
    directory 20 ["telephoneNumber"],
    directory 21 ["telexNumber"],
    directory 22 ["teletexTerminalIdentifier"],
    directory 23 ["facsimileTelephoneNumber"],
    directory 24 ["x121Address"],
    directory 25 ["internationaliSDNNumber"],
    directory 26 ["registeredAddress"],
    directory 27 ["destinationIndicator"],
    directory 28 ["preferredDeliveryMethod"],
    directory 29 ["presentationAddress"],
    directory 30 ["supportedApplicationContext"],
    directory 31 ["member"],
    directory 32 ["owner"],
    directory 33 ["roleOccupant"],
    directory 34 ["seeAlso"],
    directory 35 ["userPassword"],
    directory 36 ["userCertificate"],
    directory 37 ["cACertificate"],
    directory 38 ["authorityRevocationList"],
    directory 39 ["certificateRevocationList"],
    directory 40 ["crossCertificatePair"],
    directory 41 ["name"],
    directory 42 ["givenName"],
    directory 43 ["initials"],
    directory 44 ["generationQualifier"],
    directory 45 ["x500UniqueIdentifier"],
    directory 46 ["dnQualifier"],
    directory 47 ["enhancedSearchGuide"],
    directory 48 ["protocolInformation"],
    directory 49 ["distinguishedName"],
    directory 50 ["uniqueMember"],
    directory 51 ["houseIdentifier"],
    directory 52 ["supportedAlgorithms"],
    directory 53 ["deltaRevocationList"],
    directory 54 ["dmdName"],
    directory 65 ["pseudonym"],
    directory 72 ["id-at-role"],
    ⟨⟨[0x55, 0x1d]⟩, ["id-ce"]⟩,
    ⟨⟨[0x55, 0x1d, 0x1e]⟩, ["id-ce-nameConstraints"]⟩]

def countryName : ObjectIdentifier := ⟨[0x55, 0x04, 0x06]⟩

def serialNumber : ObjectIdentifier := ⟨[0x55, 0x04, 0x05]⟩

def domainComponent : ObjectIdentifier :=
  ⟨[0x09, 0x92, 0x26, 0x89, 0x93, 0xf2, 0x2c, 0x64, 0x01, 0x19]⟩

def isNamed (key : AttributeKey) (name : Octets) : Bool :=
  key.names.any fun s => (Ascii.ofString s).map Ascii.toLower = name.map Ascii.toLower

/-- The type with the given name. -/
def typeOfName? (name : Octets) : Option ObjectIdentifier :=
  (table.find? (·.isNamed name)).map (·.type)

/-- The first of the shortest names. -/
def shortest : List String → Option String
  | [] => none
  | s :: rest =>
    match shortest rest with
    | some t => if t.length < s.length then some t else some s
    | none => some s

def nameOfType? (type : ObjectIdentifier) : Option String := do
  shortest (← table.find? (·.type = type)).names

end AttributeKey

end TrustAnchors
