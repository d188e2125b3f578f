import StyleRegistry.Numeral

/-! # Content hashes

The 32-bit FNV-1a hash. A hash may start from an earlier one, so a sequence
of texts is hashed by passing each result on as the next seed; a zero seed
stands for the offset basis. -/
namespace StyleRegistry.Hash

def offsetBasis : UInt32 := 0x811c9dc5

def prime : UInt32 := 0x01000193

def start (seed : UInt32) : UInt32 := if seed = 0 then offsetBasis else seed

/-- The product with the prime, whose other set bits are 1, 4, 7, 8 and 24. -/
def scale (h : UInt32) : UInt32 :=
  h + ((h <<< 1) + (h <<< 4) + (h <<< 7) + (h <<< 8) + (h <<< 24))

theorem shiftLeft_eq_mul (h k p : UInt32) (hk : k < 32) (hp : p.toNat = Nat.pow 2 k.toNat) :
    h <<< k = h * p := by
  have hk : k.toNat < 32 := hk
  apply UInt32.toNat_inj.mp
  rw [UInt32.toNat_shiftLeft, UInt32.toNat_mul, hp, Nat.mod_eq_of_lt hk, Nat.shiftLeft_eq, Nat.pow_eq]

theorem scale_eq_mul (h : UInt32) : scale h = h * prime := by
  unfold scale prime
  rw [shiftLeft_eq_mul h 1 2 (by decide) (by decide),
    shiftLeft_eq_mul h 4 16 (by decide) (by decide),
    shiftLeft_eq_mul h 7 128 (by decide) (by decide),
    shiftLeft_eq_mul h 8 256 (by decide) (by decide),
    shiftLeft_eq_mul h 24 16777216 (by decide) (by decide)]
  grind

/-- Mixes one byte in. -/
def mix (h : UInt32) (b : UInt8) : UInt32 := scale (h ^^^ b.toUInt32)

def hash (text : Bytes) (seed : UInt32) : UInt32 := text.foldl mix (start seed)

/-- Hashes the texts one after another, each from the result before it. -/
def chain (seed : UInt32) (texts : List Bytes) : UInt32 :=
  texts.foldl (fun h text => hash text h) seed

/-- Every intermediate hash of a chain, in order. -/
def chainSteps (seed : UInt32) : List Bytes → List UInt32
  | [] => []
  | text :: rest => hash text seed :: chainSteps (hash text seed) rest

/-! ## Names -/

def text (h : UInt32) : Bytes := Numeral.base32 h.toNat

/-- The name made from a text alone. -/
def nameOf (text : Bytes) : Bytes := Hash.text (hash text 0)

end StyleRegistry.Hash
