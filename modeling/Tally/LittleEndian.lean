namespace Tally.LittleEndian

def encode : Nat → Nat → List UInt8
  | 0, _ => []
  | width + 1, n => UInt8.ofNat n :: encode width (n / 256)

def modulus : Nat → Nat
  | 0 => 1
  | width + 1 => 256 * modulus width

def decode : List UInt8 → Nat
  | [] => 0
  | b :: bs => b.toNat + 256 * decode bs

def encodeInt (width : Nat) (z : Int) : List UInt8 := encode width (z % modulus width).toNat

/-- Reads two's complement: the upper half of the range stands for negative numbers. -/
def decodeInt (bytes : List UInt8) : Int := (decode bytes : Int).bmod (modulus bytes.length)

@[simp] theorem length_encode (width n : Nat) : (encode width n).length = width := by
  induction width generalizing n with
  | zero => rfl
  | succ width ih => simp [encode, ih]

theorem decode_encode (width n : Nat) : decode (encode width n) = n % modulus width := by
  induction width generalizing n with
  | zero => simp [encode, decode, modulus, Nat.mod_one]
  | succ width ih =>
    have byte : (UInt8.ofNat n).toNat = n % 256 := UInt8.toNat_ofNat'
    rw [encode, decode, ih, byte, modulus, Nat.mod_mul]

theorem decode_lt (bytes : List UInt8) : decode bytes < modulus bytes.length := by
  induction bytes with
  | nil => simp [decode, modulus]
  | cons b bs ih =>
    have := b.toNat_lt
    simp only [decode, List.length_cons, modulus]
    omega

theorem encode_decode (bytes : List UInt8) : encode bytes.length (decode bytes) = bytes := by
  induction bytes with
  | nil => rfl
  | cons b bs ih =>
    have lt := b.toNat_lt
    have byte : (UInt8.ofNat (b.toNat + 256 * decode bs)).toNat =
      (b.toNat + 256 * decode bs) % 256 := UInt8.toNat_ofNat'
    have head : UInt8.ofNat (b.toNat + 256 * decode bs) = b := UInt8.toNat_inj.mp (by omega)
    have tail : (b.toNat + 256 * decode bs) / 256 = decode bs := by omega
    simp only [List.length_cons, decode, encode, head, tail, ih]

end Tally.LittleEndian
