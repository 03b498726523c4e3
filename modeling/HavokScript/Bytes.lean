/-!
# Byte strings

Everything this library reads and writes is a list of bytes: chunk files, names and string
constants (which need not be valid text), listings, sources and exports.

* `utf8` gives the bytes of a string literal;
* `Bytes.toNat` and `Bytes.ofNat` read and write fixed-width unsigned integers in either byte order;
* `wrap64` is arithmetic on 64-bit signed integers.
-/

namespace HavokScript

/-- A byte string. -/
abbrev Bytes := List UInt8

/-- The UTF-8 bytes of a string. -/
def utf8 (s : String) : Bytes := s.toUTF8.data.toList

/-- The order of the bytes of a multi-byte integer. -/
inductive ByteOrder where
  /-- least significant byte first -/
  | little
  /-- most significant byte first -/
  | big
  deriving DecidableEq, Repr

namespace Bytes

/-! ## Unsigned integers -/

/-- The integer whose base-256 digits are `bs`, least significant first. -/
def littleToNat : Bytes → Nat
  | [] => 0
  | b :: bs => b.toNat + 256 * littleToNat bs

/-- The `width` low base-256 digits of `n`, least significant first. -/
def littleOfNat : Nat → Nat → Bytes
  | 0, _ => []
  | width + 1, n => (n % 256).toUInt8 :: littleOfNat width (n / 256)

/-- The unsigned integer written as `bs` in the given order. -/
def toNat : ByteOrder → Bytes → Nat
  | .little, bs => littleToNat bs
  | .big, bs => littleToNat bs.reverse

/-- The low `width` bytes of `n` in the given order. -/
def ofNat : ByteOrder → Nat → Nat → Bytes
  | .little, width, n => littleOfNat width n
  | .big, width, n => (littleOfNat width n).reverse

@[simp] theorem length_littleOfNat (width n : Nat) : (littleOfNat width n).length = width := by
  induction width generalizing n with
  | zero => rfl
  | succ width ih => simp [littleOfNat, ih]

@[simp] theorem length_ofNat (order : ByteOrder) (width n : Nat) :
    (ofNat order width n).length = width := by
  cases order <;> simp [ofNat]

/-- Reading back what was written gives the integer modulo its width. -/
theorem littleToNat_littleOfNat (width n : Nat) :
    littleToNat (littleOfNat width n) = n % Nat.pow 256 width := by
  induction width generalizing n with
  | zero => simp [littleOfNat, littleToNat, Nat.mod_one]
  | succ width ih =>
    have hb : (n % 256).toUInt8.toNat = n % 256 := by
      simp
    rw [littleOfNat, littleToNat, ih, hb]
    show _ = n % (Nat.pow 256 width * 256)
    rw [Nat.mul_comm (Nat.pow 256 width) 256, Nat.mod_mul]

theorem toNat_ofNat (order : ByteOrder) (width n : Nat) :
    toNat order (ofNat order width n) = n % Nat.pow 256 width := by
  cases order <;> simp [toNat, ofNat, littleToNat_littleOfNat]

/-! ## Splitting and joining -/

/-- The pieces between the separators, empty ones included. -/
def split (separator : UInt8) : Bytes → List Bytes
  | [] => [[]]
  | b :: bs =>
    if b = separator then [] :: split separator bs
    else match split separator bs with
      | [] => [[b]]
      | piece :: pieces => (b :: piece) :: pieces

/-- The items with a separator between any two neighbours. -/
def join (separator : Bytes) : List Bytes → Bytes
  | [] => []
  | [item] => item
  | item :: items => item ++ separator ++ join separator items

end Bytes

/-! ## Signed integers -/

/-- The signed 64-bit integer that `x` wraps around to. -/
def wrap64 (x : Int) : Int := Int.bmod x 0x10000000000000000

/-- The signed integer of `width` bytes with the same bits as `n`. -/
def signed (width n : Nat) : Int := Int.bmod n (Nat.pow 256 width)

/-- The unsigned 64-bit integer with the same bits as `x`. -/
def unsigned64 (x : Int) : Nat := (x % 0x10000000000000000).toNat

end HavokScript
