/-
Little-endian numbers: a natural number as `w` bytes, least significant first, and back.
-/
import Mathlib.Data.Nat.Digits.Defs
import Mathlib.Data.Nat.Digits.Lemmas

namespace LittleEndian

/-- The `w` low bytes of `n`. -/
def encode : Nat → Nat → List (BitVec 8)
  | 0, _ => []
  | w + 1, n => BitVec.ofNat 8 n :: encode w (n / 256)

/-- The number with these bytes. -/
def decode (bs : List (BitVec 8)) : Nat := Nat.ofDigits 256 (bs.map BitVec.toNat)

@[simp] theorem decode_nil : decode [] = 0 := rfl

@[simp] theorem decode_cons (b : BitVec 8) (bs : List (BitVec 8)) :
    decode (b :: bs) = b.toNat + 256 * decode bs := by
  simp [decode, Nat.ofDigits_cons]

@[simp] theorem length_encode (w n : Nat) : (encode w n).length = w := by
  induction w generalizing n with
  | zero => rfl
  | succ w ih => simp [encode, ih]

theorem decode_lt (bs : List (BitVec 8)) : decode bs < 256 ^ bs.length := by
  induction bs with
  | nil => simp
  | cons b bs ih =>
    have hb : b.toNat < 256 := b.isLt
    rw [decode_cons, List.length_cons, Nat.pow_succ]
    omega

theorem decode_encode (w n : Nat) : decode (encode w n) = n % 256 ^ w := by
  induction w generalizing n with
  | zero => simp [encode, Nat.mod_one]
  | succ w ih =>
    have hb : (BitVec.ofNat 8 n).toNat = n % 256 := BitVec.toNat_ofNat ..
    rw [encode, decode_cons, ih, hb, Nat.pow_succ', Nat.mod_mul]

theorem decode_encode_of_lt {w n : Nat} (h : n < 256 ^ w) : decode (encode w n) = n := by
  rw [decode_encode, Nat.mod_eq_of_lt h]

theorem encode_decode (bs : List (BitVec 8)) : encode bs.length (decode bs) = bs := by
  induction bs with
  | nil => rfl
  | cons b bs ih =>
    have hb : b.toNat < 256 := b.isLt
    have hlow : BitVec.ofNat 8 (b.toNat + 256 * decode bs) = b := by
      apply BitVec.eq_of_toNat_eq
      rw [BitVec.toNat_ofNat]
      omega
    have hrest : (b.toNat + 256 * decode bs) / 256 = decode bs := by omega
    rw [List.length_cons, decode_cons, encode, hlow, hrest, ih]

/-- `n` numbers of `w` bytes each, one after the other. -/
def decodeList (w : Nat) : Nat → List (BitVec 8) → List Nat
  | 0, _ => []
  | n + 1, bs => decode (bs.take w) :: decodeList w n (bs.drop w)

@[simp] theorem length_decodeList (w n : Nat) (bs : List (BitVec 8)) : (decodeList w n bs).length = n := by
  induction n generalizing bs with
  | zero => rfl
  | succ n ih => simp [decodeList, ih]

theorem decodeList_flatMap {w : Nat} {l : List Nat} (h : ∀ a ∈ l, a < 256 ^ w) :
    decodeList w l.length (l.flatMap (encode w)) = l := by
  induction l with
  | nil => rfl
  | cons a l ih =>
    have hlen : (encode w a).length = w := length_encode w a
    rw [List.length_cons, List.flatMap_cons, decodeList, List.take_left' hlen, List.drop_left' hlen,
      decode_encode_of_lt (h a (List.mem_cons_self ..)), ih fun b hb => h b (List.mem_cons_of_mem a hb)]

theorem flatMap_decodeList {w n : Nat} {bs : List (BitVec 8)} (h : bs.length = w * n) :
    (decodeList w n bs).flatMap (encode w) = bs := by
  induction n generalizing bs with
  | zero => exact (List.eq_nil_of_length_eq_zero (by simpa using h)).symm
  | succ n ih =>
    have htake : (bs.take w).length = w := by
      rw [List.length_take, h, Nat.mul_succ]
      omega
    have hdrop : (bs.drop w).length = w * n := by
      rw [List.length_drop, h, Nat.mul_succ]
      omega
    have hhead : encode w (decode (bs.take w)) = bs.take w := by
      have := encode_decode (bs.take w)
      rwa [htake] at this
    rw [decodeList, List.flatMap_cons, hhead, ih hdrop, List.take_append_drop]

theorem length_flatMap_encode (w : Nat) (l : List Nat) : (l.flatMap (encode w)).length = w * l.length := by
  induction l with
  | nil => rfl
  | cons a l ih => rw [List.flatMap_cons, List.length_append, length_encode, ih, List.length_cons, Nat.mul_succ, Nat.add_comm]

theorem decodeList_lt {w n a : Nat} {bs : List (BitVec 8)} (h : bs.length = w * n) (ha : a ∈ decodeList w n bs) :
    a < 256 ^ w := by
  induction n generalizing bs with
  | zero => simp [decodeList] at ha
  | succ n ih =>
    have htake : (bs.take w).length = w := by
      rw [List.length_take, h, Nat.mul_succ]
      omega
    rw [decodeList, List.mem_cons] at ha
    rcases ha with rfl | ha
    · have := decode_lt (bs.take w)
      rwa [htake] at this
    · apply ih _ ha
      rw [List.length_drop, h, Nat.mul_succ]
      omega

end LittleEndian
