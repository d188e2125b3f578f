import StyleRegistry.Bytes

/-! # Percent encoding

A byte outside the chosen set is written as a percent sign and two upper-case
hexadecimal digits. The percent sign is in neither set, so a written percent
sign always starts such a triplet. -/
namespace StyleRegistry.Percent

/-- The bytes left as they are: the unreserved ones alone, or also the
delimiters that keep their meaning inside a whole address. -/
inductive Keep where
  | component
  | uri
  deriving DecidableEq, Repr

/-- Letters, digits and `-._~!*'()`. -/
def isUnreserved (b : UInt8) : Bool :=
  Bytes.isUpper b || Bytes.isLower b || Bytes.isDigit b || (Bytes.ascii "-._~!*'()").contains b

/-- The delimiters `;,/?:@&=+$#`. -/
def isReserved (b : UInt8) : Bool := (Bytes.ascii ";,/?:@&=+$#").contains b

def Keep.keeps : Keep → UInt8 → Bool
  | .component, b => isUnreserved b
  | .uri, b => isUnreserved b || isReserved b

def hexDigit (d : UInt8) : UInt8 := if d < 10 then 48 + d else 55 + d

def triplet (b : UInt8) : Bytes := [37, hexDigit (b / 16), hexDigit (b % 16)]

def encodeByte (keep : Keep) (b : UInt8) : Bytes := if keep.keeps b then [b] else triplet b

def encode (keep : Keep) (text : Bytes) : Bytes := text.flatMap (encodeByte keep)

/-- A CSS reference to an address. Neither a quote nor a line end survives
the encoding, so the address cannot leave its quotes. -/
def cssUrl (address : Bytes) : Bytes :=
  Bytes.ascii "url(\"" ++ encode .uri address ++ Bytes.ascii "\")"

end StyleRegistry.Percent
