import Mathlib.Tactic.IntervalCases
import Mathlib.Tactic.Linarith
import Firebase.Firestore.Util.HardAssert
import Firebase.Firestore.Util.OrderedCode

/-!
# `util::OrderedCode`: signed numbers

A signed number takes one to ten bytes (`ordered_code.cc`).  The leading bits, up
to the first one that differs from the sign bit, hold the length, so that `len`
bytes hold the numbers of `[-2^(7 len - 1), 2^(7 len - 1))`.

`writeSignedNumIncreasing_eq` turns the exclusive ors against a table of header bits into
arithmetic: the word is the big-endian word of `signedCode len n`.
-/

namespace Firebase.Firestore.Util

open Lib List
open Int (lt_or_le)

variable {k : Nat} {n : Int}

namespace OrderedCode

/-- `Bits::Log2FloorNonZero64`, `Bits::Log2FloorNonZero` on a number that is not zero. -/
def log2FloorNonZero (n : Nat) : Nat := n.log2

/-- `Bits::Log2Floor64`: `-1` on zero. -/
def log2Floor64 (n : UInt64) : Int := if n = 0 then -1 else n.toNat.log2

def kMaxSigned64Length : Nat := 10

def kLengthToHeaderBits : List (UInt8 × UInt8) :=
  [(0, 0), (0x80, 0), (0xc0, 0), (0xe0, 0), (0xf0, 0), (0xf8, 0), (0xfc, 0), (0xfe, 0),
    (0xff, 0), (0xff, 0x80), (0xff, 0xc0)]

/-- The header bits that overlap with the payload when an encoding is read, by its length. -/
def kLengthToMask : List UInt64 :=
  [0, 0x80, 0xc000, 0xe00000, 0xf0000000, 0xf800000000, 0xfc0000000000, 0xfe000000000000,
    0xff00000000000000, 0x8000000000000000, 0]

def kBitsToLength : List Nat :=
  [1, 1, 1, 1, 1, 1, 1, 2, 2, 2, 2, 2, 2, 2, 3, 3, 3, 3, 3, 3, 3, 4,
    4, 4, 4, 4, 4, 4, 5, 5, 5, 5, 5, 5, 5, 6, 6, 6, 6, 6, 6, 6, 7, 7,
    7, 7, 7, 7, 7, 8, 8, 8, 8, 8, 8, 8, 9, 9, 9, 9, 9, 9, 9, 10]

def signedEncodingLength (n : Int64) : Nat :=
  kBitsToLength.getD (log2Floor64 (if n < 0 then ~~~n else n).toUInt64 + 1).toNat 0

def signedEncodingLengthPositive (n : Int64) : Nat :=
  kBitsToLength.getD (log2FloorNonZero n.toUInt64.toNat + 1) 0

def xorHeader (bits : UInt8 × UInt8) : Bytes → Bytes
  | b0 :: b1 :: rest => (b0 ^^^ bits.1) :: (b1 ^^^ bits.2) :: rest
  | bytes => bytes

variable (val : Int64)

def writeSignedNumIncreasing : Bytes :=
  let x := if val < 0 then ~~~val else val
  if x < 64 then [(kLengthToHeaderBits.getD 1 (0, 0)).1 ^^^ val.toUInt64.toUInt8]
  else
    -- `val` in network byte order, sign extended to ten bytes
    let signByte : UInt8 := if val < 0 then 0xff else 0x00
    let buf := signByte :: signByte :: bigEndian 8 val.toUInt64.toNat
    let len := signedEncodingLengthPositive x
    xorHeader (kLengthToHeaderBits.getD len (0, 0)) (buf.drop (kMaxSigned64Length - len))

/-- `x = (x << 8) | byte` over a run of bytes. -/
def shiftInBytes (x : UInt64) (bytes : Bytes) : UInt64 :=
  bytes.foldl (fun x b => (x <<< 8) ||| b.toUInt64) x

/-- The end of `ReadSignedNumIncreasing`, once the length and the raw bytes are known. -/
def finishSignedNum (src : Bytes) (len : Nat) (raw : UInt64) : Hard (Option (Int64 × Bytes)) := do
  -- remove spurious header bits
  let x := raw ^^^ kLengthToMask.getD len 0
  hardAssert (len == signedEncodingLength x.toInt64)
    "len == static_cast<size_t>(SignedEncodingLength(static_cast<int64_t>(x)))"
  return some (x.toInt64, src.drop len)

/-- `OrderedCode::ReadSignedNumIncreasing`: the number and what follows its encoding,
`none` if the input does not start with an encoding, and an abort if the
encoding is longer than it has to be. -/
def readSignedNumIncreasing (src : Bytes) : Hard (Option (Int64 × Bytes)) :=
  match src with
  | [] => .ok none
  | b0 :: _ =>
    let negative : Bool := b0 &&& 0x80 = 0
    let xorMask : UInt64 := if negative then ~~~0 else 0
    let byteMask : UInt8 := if negative then 0xff else 0
    let firstByte := b0 ^^^ byteMask
    if firstByte ≠ 0xff then
      let len := 7 - log2FloorNonZero (firstByte ^^^ 0xff).toNat
      if src.length < len then .ok none
      else finishSignedNum src len (shiftInBytes xorMask (src.take len))
    else if src.length < 8 then .ok none
    else
      let secondByte := src.getD 1 0 ^^^ byteMask
      if secondByte < 0x80 then finishSignedNum src 8 (shiftInBytes 0 (src.take 8))
      else if secondByte < 0xc0 then
        if src.length < 9 then .ok none
        else finishSignedNum src 9 (shiftInBytes 0 ((src.drop 1).take 8))
      else
        let thirdByte := src.getD 2 0 ^^^ byteMask
        if secondByte = 0xc0 ∧ thirdByte < 0x80 then
          if src.length < 10 then .ok none
          else finishSignedNum src 10 (shiftInBytes 0 ((src.drop 2).take 8))
        else .ok none

/-! ### The length of an encoding -/

/-- The value whose bits are counted: the number itself, or its complement when it is negative. -/
def magnitude : Nat := (if val < 0 then ~~~val else val).toUInt64.toNat

def encodingLength (m : Nat) : Nat := (if m = 0 then 0 else m.log2 + 1) / 7 + 1

theorem toInt_eq : (val.toInt = val.toUInt64.toNat ∧ val.toUInt64.toNat < 2 ^ 63) ∨
      (val.toInt = val.toUInt64.toNat - 2 ^ 64 ∧ 2 ^ 63 ≤ val.toUInt64.toNat) := by
  have h := BitVec.toInt_eq_toNat_cond val.toBitVec
  rw [Int64.toNat_toBitVec] at h
  split at h
  · exact .inl ⟨h, by omega⟩
  · exact .inr ⟨by simpa using h, by omega⟩

theorem toUInt64_toNat_of_nonneg {val : Int64} (h : 0 ≤ val.toInt) :
    (val.toUInt64.toNat : Int) = val.toInt := by
  rcases toInt_eq val with ⟨h', _⟩ | ⟨h', h''⟩
  · exact h'.symm
  · have := val.toUInt64.toNat_lt
    omega

theorem toUInt64_toNat_of_neg {val : Int64} (h : val.toInt < 0) :
    (val.toUInt64.toNat : Int) = 2 ^ 64 + val.toInt := by
  rcases toInt_eq val with ⟨h', _⟩ | ⟨h', _⟩ <;> omega

theorem lt_zero_iff {val : Int64} : val < 0 ↔ val.toInt < 0 := by
  rw [Int64.lt_iff_toInt_lt, Int64.toInt_zero]

theorem magnitude_of_nonneg {val : Int64} (h : 0 ≤ val.toInt) :
    (magnitude val : Int) = val.toInt := by
  rw [magnitude, if_neg (by rw [lt_zero_iff]; omega), toUInt64_toNat_of_nonneg h]

theorem magnitude_of_neg {val : Int64} (h : val.toInt < 0) :
    (magnitude val : Int) = -val.toInt - 1 := by
  have hu := toUInt64_toNat_of_neg h
  rw [magnitude, if_pos (lt_zero_iff.mpr h), Int64.toUInt64_not, UInt64.toNat_not]
  have := val.toUInt64.toNat_lt
  have : UInt64.size = 2 ^ 64 := rfl
  omega

theorem magnitude_lt : magnitude val < 2 ^ 63 := by
  have h₁ := val.toInt_lt
  have h₂ := val.le_toInt
  rcases lt_or_le val.toInt 0 with h | h
  · have := magnitude_of_neg h
    omega
  · have := magnitude_of_nonneg h
    omega

/-- `len` bytes hold the numbers with a magnitude below `2 ^ (7 len - 1)`. -/
theorem encodingLength_le_iff {m len : Nat} (hlen : 1 ≤ len) :
    encodingLength m ≤ len ↔ m < 2 ^ (7 * len - 1) := by
  by_cases hm : m = 0
  · simp [encodingLength, hm, hlen]
  · rw [← Nat.log2_lt hm, encodingLength, if_neg hm]
    omega

theorem one_le_encodingLength (m : Nat) : 1 ≤ encodingLength m := by
  simp [encodingLength]

theorem encodingLength_mono {m n : Nat} (h : m ≤ n) : encodingLength m ≤ encodingLength n := by
  rw [encodingLength_le_iff (one_le_encodingLength n)]
  exact h.trans_lt ((encodingLength_le_iff (one_le_encodingLength n)).mp le_rfl)

theorem encodingLength_le_ten : encodingLength (magnitude val) ≤ 10 := by
  rw [encodingLength_le_iff (by decide)]
  exact (magnitude_lt val).trans (by decide)

theorem kBitsToLength_eq : ∀ b < 64, kBitsToLength.getD b 0 = b / 7 + 1 := by decide

theorem log2_magnitude_lt : (magnitude val).log2 < 63 := by
  by_cases hm : magnitude val = 0
  · simp [hm]
  · exact (Nat.log2_lt hm).mpr (magnitude_lt val)

theorem signedEncodingLength_eq : signedEncodingLength val = encodingLength (magnitude val) := by
  have hlog := log2_magnitude_lt val
  have hzero : (if val < 0 then ~~~val else val).toUInt64 = 0 ↔ magnitude val = 0 := by
    rw [← UInt64.toNat_inj]
    rfl
  by_cases hm : magnitude val = 0
  · rw [signedEncodingLength, log2Floor64, if_pos (hzero.mpr hm), encodingLength, if_pos hm]
    decide
  · rw [signedEncodingLength, log2Floor64, if_neg (fun h => hm (hzero.mp h)), encodingLength,
      if_neg hm]
    change kBitsToLength.getD (((magnitude val).log2 : Int) + 1).toNat 0 = _
    exact kBitsToLength_eq _ (by omega)

theorem signedEncodingLengthPositive_eq {val : Int64} (hm : magnitude val ≠ 0) :
    signedEncodingLengthPositive (if val < 0 then ~~~val else val) =
      encodingLength (magnitude val) := by
  have hlog := log2_magnitude_lt val
  rw [encodingLength, if_neg hm]
  exact kBitsToLength_eq _ (by rw [log2FloorNonZero]; change (magnitude val).log2 + 1 < 64; omega)

/-! ### The encoding as a number -/

/-- The big-endian value of the `len`-byte encoding of `n`: the length bits stand above the `7 len`
payload bits. -/
def signedCode (len : Nat) (n : Int) : Nat :=
  if 0 ≤ n then (2 ^ len - 1) * 2 ^ (7 * len) + n.toNat else (2 ^ (7 * len) + n).toNat

/-- The numbers that fit into `len` bytes. -/
def FitsIn (len : Nat) (n : Int) : Prop := -2 ^ (7 * len - 1) ≤ n ∧ n < 2 ^ (7 * len - 1)

theorem fitsIn_encodingLength : FitsIn (encodingLength (magnitude val)) val.toInt := by
  have h := (encodingLength_le_iff (one_le_encodingLength (magnitude val))).mp le_rfl
  have h' : (magnitude val : Int) < 2 ^ (7 * encodingLength (magnitude val) - 1) := by
    exact_mod_cast h
  rcases lt_or_le val.toInt 0 with hv | hv
  · have := magnitude_of_neg hv
    exact ⟨by omega, by omega⟩
  · have := magnitude_of_nonneg hv
    exact ⟨by omega, by omega⟩

variable {len : Nat} {n : Int}

theorem signedCode_of_nonneg (h : 0 ≤ n) :
    signedCode len n = (2 ^ len - 1) * 2 ^ (7 * len) + n.toNat := if_pos h

theorem signedCode_of_neg (h : n < 0) :
    signedCode len n = (2 ^ (7 * len) + n).toNat := if_neg (by omega)

theorem xor_two_pow_mul (w i c : Nat) :
    w ^^^ 2 ^ i * c = 2 ^ i * (w / 2 ^ i ^^^ c) + w % 2 ^ i := by
  rw [← xor_mul_two_pow_add (Nat.mod_lt w (Nat.two_pow_pos i)), Nat.div_add_mod]

theorem pow_256 (n : Nat) : 256 ^ n = 2 ^ (8 * n) := by
  rw [pow_mul]
  rfl

theorem cast_two_pow (n : Nat) : (2 : Int) ^ n = ((2 ^ n : Nat) : Int) := by
  rfl

/-- The codes of `len` bytes: those under the header bits, and a slot above. -/
theorem header_add (len : Nat) : (2 ^ len - 1) * 2 ^ (7 * len) + 2 ^ (7 * len) = 256 ^ len := by
  have hpos : 0 < 2 ^ len := Nat.pow_pos (by decide)
  rw [pow_256, ← Nat.succ_mul, Nat.succ_eq_add_one, Nat.sub_add_cancel hpos, ← pow_add]
  congr 1
  omega

theorem le_header (hlen : 1 ≤ len) : 2 ^ (7 * len) ≤ (2 ^ len - 1) * 2 ^ (7 * len) := by
  have h2 : 2 ≤ 2 ^ len := by simpa using Nat.pow_le_pow_right (show 0 < 2 by decide) hlen
  exact Nat.le_mul_of_pos_left _ (by omega)

theorem two_mul_half (hlen : 1 ≤ len) : 2 ^ (7 * len) = 2 * 2 ^ (7 * len - 1) := by
  rw [← pow_succ']
  congr 1
  omega

/-- The payload of a longer encoding is within half of a slot of a shorter one. -/
theorem payload_le_half (hlen : 1 ≤ len) (k : Nat) :
    2 ^ (7 * (len + (k + 1))) ≤ 2 ^ (7 * len - 1) * 256 ^ (k + 1) := by
  rw [pow_256, ← pow_add]
  exact Nat.pow_le_pow_right (by decide) (by omega)

/-- The payload of a number that fits, as the `7 len` low-order bits. -/
theorem FitsIn.payload_lt (h : FitsIn len n) : n < 2 ^ (7 * len) ∧ -2 ^ (7 * len) ≤ n := by
  have hle : (2 : Int) ^ (7 * len - 1) ≤ 2 ^ (7 * len) :=
    pow_le_pow_right₀ (by decide) (by omega)
  exact ⟨h.2.trans_le hle, (neg_le_neg hle).trans h.1⟩

/-- The sign-extended number with its header bits flipped is the code. -/
theorem xor_header_mod {len w : Nat} (hn : FitsIn len n) (hlen : len ≤ 10)
    (hw : 0 ≤ n ∧ (w : Int) = n ∨ n < 0 ∧ (w : Int) = 2 ^ 80 + n) :
    (w ^^^ (2 ^ len - 1) * 2 ^ (7 * len)) % 256 ^ len = signedCode len n % 256 ^ len := by
  obtain ⟨hge, hlt⟩ := hn
  have h256 : 256 ^ len = 2 ^ (7 * len) * 2 ^ len := by
    rw [pow_256, ← pow_add]
    congr 1
    omega
  have hones : (2 ^ len - 1) % 2 ^ len = 2 ^ len - 1 :=
    Nat.mod_eq_of_lt (Nat.sub_lt (Nat.two_pow_pos _) one_pos)
  -- The payload stays as it is, and the bits above it are flipped.
  rw [mul_comm, xor_two_pow_mul, h256, Nat.mod_mul, Nat.mul_add_mod,
    Nat.mul_add_div (Nat.two_pow_pos _), Nat.div_eq_of_lt (Nat.mod_lt _ (Nat.two_pow_pos _)),
    Nat.add_zero, Nat.xor_mod_two_pow, hones]
  rcases hw with ⟨h0, hw⟩ | ⟨h0, hw⟩
  · have hsign : w / 2 ^ (7 * len) % 2 ^ len = 0 := by interval_cases len <;> omega
    rw [hsign, Nat.zero_xor, signedCode_of_nonneg h0]
    interval_cases len <;> omega
  · have hsign : w / 2 ^ (7 * len) % 2 ^ len = 2 ^ len - 1 := by interval_cases len <;> omega
    rw [hsign, Nat.xor_self, signedCode_of_neg h0]
    interval_cases len <;> omega

theorem header_bigEndian : ∀ len, 2 ≤ len → len ≤ 10 →
    bigEndian len ((2 ^ len - 1) * 2 ^ (7 * len)) =
      (kLengthToHeaderBits.getD len (0, 0)).1 :: (kLengthToHeaderBits.getD len (0, 0)).2 ::
        List.replicate (len - 2) 0 := by
  intro len h₁ h₂
  interval_cases len <;> rfl

theorem zipWith_xor_replicate (bytes : Bytes) :
    List.zipWith (· ^^^ ·) bytes (List.replicate bytes.length 0) = bytes := by
  induction bytes with
  | nil => rfl
  | cons b bytes ih => simp [replicate_succ, ih]

theorem xorHeader_bigEndian {len w : Nat} (h₁ : 2 ≤ len) (h₂ : len ≤ 10) :
    xorHeader (kLengthToHeaderBits.getD len (0, 0)) (bigEndian len w) =
      bigEndian len (w ^^^ (2 ^ len - 1) * 2 ^ (7 * len)) := by
  rw [bigEndian_xor, header_bigEndian len h₁ h₂]
  obtain ⟨k, rfl⟩ : ∃ k, len = k + 2 := ⟨len - 2, by omega⟩
  rw [bigEndian_succ, bigEndian_succ, xorHeader, zipWith_cons_cons, zipWith_cons_cons,
    Nat.add_sub_cancel]
  have h := zipWith_xor_replicate (bigEndian k w)
  rw [length_bigEndian] at h
  rw [h]

/-- The number in network byte order, sign extended to ten bytes. -/
theorem signExtend_bigEndian : ∃ w : Nat,
    (0 ≤ val.toInt ∧ (w : Int) = val.toInt ∨ val.toInt < 0 ∧ (w : Int) = 2 ^ 80 + val.toInt) ∧
      (if val < 0 then (0xff : UInt8) else 0x00) :: (if val < 0 then (0xff : UInt8) else 0x00) ::
        bigEndian 8 val.toUInt64.toNat = bigEndian 10 w := by
  have h₁ := val.toInt_lt
  have h₂ := val.le_toInt
  rcases lt_or_le val.toInt 0 with h | h
  · have hu := toUInt64_toNat_of_neg h
    refine ⟨(2 ^ 80 + val.toInt).toNat, .inr ⟨h, by omega⟩, ?_⟩
    rw [if_pos (lt_zero_iff.mpr h), bigEndian_succ 9, bigEndian_succ 8]
    have e₁ : (2 ^ 80 + val.toInt).toNat / 256 ^ 9 = 255 := by omega
    have e₂ : (2 ^ 80 + val.toInt).toNat / 256 ^ 8 = 65535 := by omega
    rw [e₁, e₂, bigEndian_congr (n := 8) (a := val.toUInt64.toNat)
      (b := (2 ^ 80 + val.toInt).toNat)]
    · rfl
    · omega
  · have hu := toUInt64_toNat_of_nonneg h
    refine ⟨val.toInt.toNat, .inl ⟨h, by omega⟩, ?_⟩
    rw [if_neg (by rw [lt_zero_iff]; omega), bigEndian_succ 9, bigEndian_succ 8]
    have e₁ : val.toInt.toNat / 256 ^ 9 = 0 := by omega
    have e₂ : val.toInt.toNat / 256 ^ 8 = 0 := by omega
    rw [e₁, e₂, show val.toUInt64.toNat = val.toInt.toNat by omega]
    rfl

/-- The fast path is taken for small magnitudes. -/
theorem lt_iff_magnitude_lt : (if val < 0 then ~~~val else val) < 64 ↔ magnitude val < 64 := by
  have hm := magnitude_lt val
  have hx : (if val < 0 then ~~~val else val).toInt = magnitude val := by
    rcases toInt_eq (if val < 0 then ~~~val else val) with ⟨h, _⟩ | ⟨_, h⟩
    · exact h
    · change 2 ^ 63 ≤ magnitude val at h
      omega
  rw [Int64.lt_iff_toInt_lt, hx]
  exact Nat.cast_lt

/-- **The encoding is a big-endian number.**  The table-driven exclusive ors of
`WriteSignedNumIncreasing` write the `len`-byte word of `signedCode len`. -/
theorem writeSignedNumIncreasing_eq : writeSignedNumIncreasing val =
      bigEndian (signedEncodingLength val) (signedCode (signedEncodingLength val) val.toInt) := by
  rw [signedEncodingLength_eq]
  have hfit := fitsIn_encodingLength val
  have hten := encodingLength_le_ten val
  obtain ⟨w, hw, hbuf⟩ := signExtend_bigEndian val
  have hcode := bigEndian_congr (xor_header_mod hfit hten hw)
  by_cases hx : (if val < 0 then ~~~val else val) < 64
  · -- The fast path: one byte, the low byte of the number with its sign bit flipped.
    have hlen : encodingLength (magnitude val) = 1 := le_antisymm
      ((encodingLength_le_iff le_rfl).mpr ((lt_iff_magnitude_lt val).mp hx))
      (one_le_encodingLength _)
    rw [hlen] at hcode ⊢
    rw [← hcode, writeSignedNumIncreasing, if_pos hx, bigEndian_xor, UInt8.xor_comm]
    have hlow : bigEndian 1 w = [val.toUInt64.toUInt8] := by
      have h := congrArg (List.drop 9) hbuf
      rw [show 10 = 9 + 1 from rfl, drop_bigEndian] at h
      rw [← h]
      change bigEndian 1 val.toUInt64.toNat = _
      rw [bigEndian_succ]
      congr 1
      apply UInt8.toNat_inj.mp
      simp
    rw [hlow]
    rfl
  · have hm := mt (lt_iff_magnitude_lt val).mpr hx
    have hlen : 2 ≤ encodingLength (magnitude val) := by
      by_contra hlt
      have := (encodingLength_le_iff (m := magnitude val) le_rfl).mp (by omega)
      omega
    rw [writeSignedNumIncreasing, if_neg hx]
    simp only
    rw [signedEncodingLengthPositive_eq (by omega), hbuf, ← hcode, ← xorHeader_bigEndian hlen hten]
    congr 1
    have h := drop_bigEndian (10 - encodingLength (magnitude val)) (encodingLength (magnitude val))
      w
    rwa [show 10 - encodingLength (magnitude val) + encodingLength (magnitude val) =
      10 by omega] at h

/-! ### Order -/

theorem signedCode_lt (h : FitsIn len n) : signedCode len n < 256 ^ len := by
  obtain ⟨hlt, hge⟩ := h.payload_lt
  have hcast := cast_two_pow (7 * len)
  have h256 := header_add len
  rcases lt_or_le n 0 with h0 | h0
  · rw [signedCode_of_neg h0]
    omega
  · rw [signedCode_of_nonneg h0]
    omega

/-- Numbers of one encoding length. -/
theorem signedCode_strictMono (hlen : 1 ≤ len) {a b : Int} (ha : FitsIn len a)
    (hab : a < b) : signedCode len a < signedCode len b := by
  have hge := ha.payload_lt.2
  have hcast := cast_two_pow (7 * len)
  have hhead := le_header hlen
  rcases lt_or_le a 0 with ha0 | ha0
  · rw [signedCode_of_neg ha0]
    rcases lt_or_le b 0 with hb0 | hb0
    · rw [signedCode_of_neg hb0]
      omega
    · rw [signedCode_of_nonneg hb0]
      omega
  · rw [signedCode_of_nonneg ha0, signedCode_of_nonneg (by omega)]
    omega

section Longer

variable {len k : Nat} {a b : Int} (hlen : 1 ≤ len)

include hlen

/-- A longer encoding of a number that is not negative lies above every shorter encoding. -/
theorem signedCode_above (ha : FitsIn len a) (hb : 0 ≤ b) :
    signedCode len a < signedCode (len + (k + 1)) b / 256 ^ (k + 1) := by
  have hlt := ha.2
  have hge := ha.payload_lt.2
  have hhalf := two_mul_half hlen
  have hcast := cast_two_pow (7 * len - 1)
  have hcast' := cast_two_pow (7 * len)
  have htop := header_add len
  have hhead := le_header hlen
  -- The shorter code leaves the upper half of its last length slot free.
  have hfree : signedCode len a + 1 + 2 ^ (7 * len - 1) ≤ 256 ^ len := by
    rcases lt_or_le a 0 with ha0 | ha0
    · rw [signedCode_of_neg ha0]
      omega
    · rw [signedCode_of_nonneg ha0]
      omega
  rw [Nat.lt_iff_add_one_le, Nat.le_div_iff_mul_le (Nat.pow_pos (by decide)),
    signedCode_of_nonneg hb]
  have hmul := Nat.mul_le_mul_right (256 ^ (k + 1)) hfree
  rw [Nat.add_mul, ← pow_add] at hmul
  have hslot := payload_le_half hlen k
  have htop' := header_add (len + (k + 1))
  omega

/-- A longer encoding of a negative number lies below every shorter encoding. -/
theorem signedCode_below (ha : a < 0) (hb : FitsIn len b) :
    signedCode (len + (k + 1)) a / 256 ^ (k + 1) < signedCode len b := by
  have hge := hb.1
  have hhalf := two_mul_half hlen
  have hcast := cast_two_pow (7 * len - 1)
  have hcast' := cast_two_pow (7 * len)
  have hhead := le_header hlen
  have hlow : 2 ^ (7 * len - 1) ≤ signedCode len b := by
    rcases lt_or_le b 0 with hb0 | hb0
    · rw [signedCode_of_neg hb0]
      omega
    · rw [signedCode_of_nonneg hb0]
      omega
  rw [Nat.div_lt_iff_lt_mul (Nat.pow_pos (by decide)), signedCode_of_neg ha]
  have hmul := Nat.mul_le_mul_right (256 ^ (k + 1)) hlow
  have hslot := payload_le_half hlen k
  have hcast'' := cast_two_pow (7 * (len + (k + 1)))
  have hpos : 0 < 2 ^ (7 * (len + (k + 1))) := Nat.pow_pos (by decide)
  omega

end Longer

/-- **Signed numbers compare as their encodings**, and no encoding is a prefix of another. -/
theorem writeSignedNumIncreasing_orderCode : OrderCode writeSignedNumIncreasing := by
  intro a b hab
  have hab' := Int64.lt_iff_toInt_lt.mp hab
  have ha := fitsIn_encodingLength a
  have hb := fitsIn_encodingLength b
  have ha1 := one_le_encodingLength (magnitude a)
  have hb1 := one_le_encodingLength (magnitude b)
  rw [writeSignedNumIncreasing_eq, writeSignedNumIncreasing_eq, signedEncodingLength_eq,
    signedEncodingLength_eq]
  generalize hla : encodingLength (magnitude a) = la at *
  generalize hlb : encodingLength (magnitude b) = lb at *
  rcases Nat.lt_trichotomy la lb with hlt | rfl | hlt
  · -- The larger number has the longer encoding, so it is not negative.
    have hb0 : 0 ≤ b.toInt := by
      by_contra hb0
      have hmb := @magnitude_of_neg b (by omega)
      have hma := @magnitude_of_neg a (by omega)
      have := encodingLength_mono (show magnitude b ≤ magnitude a by omega)
      omega
    obtain ⟨k, rfl⟩ : ∃ k, lb = la + (k + 1) := ⟨lb - la - 1, by omega⟩
    rw [bigEndian_add]
    simpa using (bigEndian_below
      (Nat.div_lt_of_lt_mul (by rw [← pow_add, Nat.add_comm (k + 1)]; exact signedCode_lt hb))
      (signedCode_above ha1 ha hb0)).append [] _
  · exact bigEndian_below (signedCode_lt hb) (signedCode_strictMono ha1 ha hab')
  · -- The smaller number has the longer encoding, so it is negative.
    have ha0 : a.toInt < 0 := by
      by_contra ha0
      have hma := @magnitude_of_nonneg a (by omega)
      have hmb := @magnitude_of_nonneg b (by omega)
      have := encodingLength_mono (show magnitude a ≤ magnitude b by omega)
      omega
    obtain ⟨k, rfl⟩ : ∃ k, la = lb + (k + 1) := ⟨la - lb - 1, by omega⟩
    rw [bigEndian_add]
    simpa using (bigEndian_below (signedCode_lt hb)
      (signedCode_below hb1 ha0 hb)).append _ []

/-! ### Reading back -/

theorem shiftInBytes_step (x : UInt64) (b : UInt8) :
    ((x <<< 8) ||| b.toUInt64).toNat = (x.toNat * 256 + b.toNat) % 2 ^ 64 := by
  have hb := b.toNat_lt
  have hx := x.toNat_lt
  rw [UInt64.toNat_or, UInt64.toNat_shiftLeft, UInt8.toNat_toUInt64, Nat.shiftLeft_eq]
  have hshift : x.toNat * 2 ^ (UInt64.toNat 8 % 64) % 2 ^ 64 = 2 ^ 8 * (x.toNat % 2 ^ 56) := by
    change x.toNat * 256 % 2 ^ 64 = 2 ^ 8 * (x.toNat % 2 ^ 56)
    omega
  rw [hshift, ← Nat.two_pow_add_eq_or_of_lt hb]
  omega

theorem shiftInBytes_toNat (x : UInt64) (bytes : Bytes) : (shiftInBytes x bytes).toNat =
      bytes.foldl (fun x b => x * 256 + b.toNat) x.toNat % 2 ^ 64 := by
  -- Reducing modulo `2 ^ 64` at every step is reducing once at the end.
  have hmod : ∀ (bytes : Bytes) y,
      bytes.foldl (fun x b => x * 256 + b.toNat) (y % 2 ^ 64) % 2 ^ 64 =
        bytes.foldl (fun x b => x * 256 + b.toNat) y % 2 ^ 64 := by
    intro bytes
    induction bytes with
    | nil => simp
    | cons b bytes ih =>
      intro y
      have hstep : (y % 2 ^ 64 * 256 + b.toNat) % 2 ^ 64 = (y * 256 + b.toNat) % 2 ^ 64 := by
        omega
      rw [foldl_cons, foldl_cons, ← ih, hstep, ih]
  induction bytes generalizing x with
  | nil =>
    have := x.toNat_lt
    simp [shiftInBytes]
  | cons b bytes ih =>
    rw [foldl_cons, ← hmod, ← shiftInBytes_step, ← ih]
    rfl

variable {len : Nat}

/-- The raw value read back differs from the number by the header mask only. -/
theorem raw_eq_xor_mask (h₁ : 1 ≤ len) (h₂ : len ≤ 10) {val : Int64} (hfit : FitsIn len val.toInt) :
    ((if len ≤ 7 ∧ val.toInt < 0 then 2 ^ 64 - 1 else 0) * 256 ^ len +
        signedCode len val.toInt) % 2 ^ 64 =
      val.toUInt64.toNat ^^^ (kLengthToMask.getD len 0).toNat := by
  obtain ⟨hge, hlt⟩ := hfit
  have hmax := val.toInt_lt
  have hmin := val.le_toInt
  have hmask : ∀ len ≤ 8, (kLengthToMask.getD len 0).toNat = 2 ^ (7 * len) * (2 ^ len - 1) := by
    intro len h
    interval_cases len <;> rfl
  have hsign : 0 ≤ val.toInt ∧ val.toUInt64.toNat = val.toInt ∨
      val.toInt < 0 ∧ val.toUInt64.toNat = 2 ^ 64 + val.toInt :=
    (lt_or_le val.toInt 0).symm.imp (fun h => ⟨h, toUInt64_toNat_of_nonneg h⟩)
      fun h => ⟨h, toUInt64_toNat_of_neg h⟩
  unfold signedCode
  generalize val.toUInt64.toNat = u at *
  rcases Nat.lt_or_ge 8 len with h8 | h8
  · -- The nine- and ten-byte forms keep the payload in the last eight bytes.
    obtain rfl | rfl : len = 9 ∨ len = 10 := by omega
    · change _ = u ^^^ 2 ^ 63 * 1
      rw [xor_two_pow_mul]
      rcases hsign with ⟨h0, hu⟩ | ⟨h0, hu⟩
      · rw [if_pos h0, show u / 2 ^ 63 = 0 by omega, Nat.zero_xor]
        omega
      · rw [if_neg (not_le.mpr h0), show u / 2 ^ 63 = 1 by omega, Nat.xor_self]
        omega
    · change _ = u ^^^ 0
      rw [Nat.xor_zero]
      split_ifs <;> omega
  · rw [hmask len h8, xor_two_pow_mul]
    rcases hsign with ⟨h0, hu⟩ | ⟨h0, hu⟩
    · have hhead : u / 2 ^ (7 * len) = 0 := by interval_cases len <;> omega
      rw [hhead, Nat.zero_xor, if_pos h0, if_neg (by omega)]
      interval_cases len <;> omega
    · have hhead : u / 2 ^ (7 * len) = 2 ^ (64 - 7 * len) - 1 := by interval_cases len <;> omega
      rw [hhead, if_neg (not_le.mpr h0)]
      interval_cases len <;>
        simp only [Nat.reducePow, Nat.reduceMul, Nat.reduceSub, Nat.reduceXor, h0, and_true,
          Nat.reduceLeDiff, if_true] <;> omega

theorem finishSignedNum_eq {val : Int64} (hlen : len = signedEncodingLength val)
    {raw : UInt64} (hraw : raw.toNat = val.toUInt64.toNat ^^^ (kLengthToMask.getD len 0).toNat)
    (rest : Bytes) :
    finishSignedNum (writeSignedNumIncreasing val ++ rest) len raw = .ok (some (val, rest)) := by
  have hx : raw ^^^ kLengthToMask.getD len 0 = val.toUInt64 := by
    apply UInt64.toNat_inj.mp
    rw [UInt64.toNat_xor, hraw, Nat.xor_assoc, Nat.xor_self, Nat.xor_zero]
  have hdrop : (writeSignedNumIncreasing val ++ rest).drop len = rest := by
    rw [writeSignedNumIncreasing_eq, ← hlen]
    exact drop_left' (length_bigEndian _ _)
  simp only [finishSignedNum, hx, Int64.toInt64_toUInt64, hdrop, ← hlen, beq_self_eq_true]
  rfl

/-- The first byte of a short encoding of a number that is not negative. -/
theorem firstByte_of_nonneg : ∀ len < 8, ∀ n < 256,
    1 ≤ len ∧ 256 - 2 ^ (8 - len) ≤ n ∧ n < 256 - 2 ^ (7 - len) →
      UInt8.ofNat n &&& 0x80 ≠ 0 ∧ UInt8.ofNat n ^^^ 0 ≠ 0xff ∧
        7 - log2FloorNonZero (UInt8.ofNat n ^^^ 0 ^^^ 0xff).toNat = len := by
  decide +kernel

/-- The first byte of a short encoding of a negative number. -/
theorem firstByte_of_neg : ∀ len < 8, ∀ n < 256, 1 ≤ len ∧ 2 ^ (7 - len) ≤ n ∧ n < 2 ^ (8 - len) →
      UInt8.ofNat n &&& 0x80 = 0 ∧ UInt8.ofNat n ^^^ 0xff ≠ 0xff ∧
        7 - log2FloorNonZero (UInt8.ofNat n ^^^ 0xff ^^^ 0xff).toNat = len := by
  decide +kernel

/-- Up to seven bytes, the first byte has the length. -/
theorem readSignedNumIncreasing_short {src t : Bytes} {b0 : UInt8} {negative : Bool}
    (hsrc : src = b0 :: t) (hneg : decide (b0 &&& 0x80 = 0) = negative)
    (hne : (b0 ^^^ if negative then 0xff else 0) ≠ 0xff)
    (hlen : 7 - log2FloorNonZero ((b0 ^^^ if negative then 0xff else 0) ^^^ 0xff).toNat = len)
    (hle : len ≤ src.length) : readSignedNumIncreasing src =
      finishSignedNum src len (shiftInBytes (if negative then ~~~0 else 0) (src.take len)) := by
  subst hsrc hneg hlen
  rw [readSignedNumIncreasing]
  rw [if_pos hne, if_neg (by omega)]

/-- From eight bytes on, the second and the third byte have the rest of the length bits. -/
def LongForm (len x1 x2 : Nat) : Prop :=
  len = 8 ∧ x1 < 128 ∨ len = 9 ∧ 128 ≤ x1 ∧ x1 < 192 ∨ len = 10 ∧ x1 = 192 ∧ x2 < 128

theorem readSignedNumIncreasing_long {b0 b1 b2 : UInt8} {t : Bytes} {negative : Bool}
    (hneg : decide (b0 &&& 0x80 = 0) = negative) (h0 : (b0 ^^^ if negative then 0xff else 0) = 0xff)
    (hlen : LongForm len (b1 ^^^ if negative then 0xff else 0).toNat
      (b2 ^^^ if negative then 0xff else 0).toNat)
    (hle : len ≤ t.length + 3) : readSignedNumIncreasing (b0 :: b1 :: b2 :: t) =
      finishSignedNum (b0 :: b1 :: b2 :: t) len
        (shiftInBytes 0 (((b0 :: b1 :: b2 :: t).drop (len - 8)).take 8)) := by
  subst hneg
  have hlength : (b0 :: b1 :: b2 :: t).length = t.length + 3 := by simp
  rw [readSignedNumIncreasing]
  rw [if_neg (fun h => h h0)]
  simp only [getD_cons_succ, getD_cons_zero]
  rcases hlen with ⟨rfl, h1⟩ | ⟨rfl, h1, h1'⟩ | ⟨rfl, h1, h2⟩
  · rw [if_neg (by omega), if_pos (UInt8.lt_iff_toNat_lt.mpr h1)]
    rfl
  · have hle80 : 0x80 ≤ (b1 ^^^ _) := UInt8.le_iff_toNat_le.mpr h1
    rw [if_neg (by omega), if_neg (not_lt_of_ge hle80),
      if_pos (UInt8.lt_iff_toNat_lt.mpr h1'), if_neg (by omega)]
  · have hc0 : (b1 ^^^ _) = 0xc0 := UInt8.toNat_inj.mp h1
    rw [if_neg (by omega), if_neg (by rw [hc0]; decide), if_neg (by rw [hc0]; decide),
      if_pos ⟨hc0, UInt8.lt_iff_toNat_lt.mpr h2⟩, if_neg (by omega)]

/-- The length bits of the eight- to ten-byte forms in the first three bytes. -/
theorem longBytes_of_nonneg (h₁ : 5 ≤ k) (h₂ : k ≤ 7) (hn : 0 ≤ n)
    (hmax : n < 2 ^ 63) (hfit : FitsIn (k + 3) n) :
    signedCode (k + 3) n / 256 ^ (k + 2) % 256 = 255 ∧
      LongForm (k + 3) (signedCode (k + 3) n / 256 ^ (k + 1) % 256)
        (signedCode (k + 3) n / 256 ^ k % 256) := by
  obtain ⟨hge, hlt⟩ := hfit
  rw [signedCode_of_nonneg hn, LongForm]
  interval_cases k <;> omega

theorem longBytes_of_neg (h₁ : 5 ≤ k) (h₂ : k ≤ 7) (hn : n < 0)
    (hmin : -2 ^ 63 ≤ n) (hfit : FitsIn (k + 3) n) :
    signedCode (k + 3) n / 256 ^ (k + 2) % 256 = 0 ∧
      LongForm (k + 3) (255 - signedCode (k + 3) n / 256 ^ (k + 1) % 256)
        (255 - signedCode (k + 3) n / 256 ^ k % 256) := by
  obtain ⟨hge, hlt⟩ := hfit
  rw [signedCode_of_neg hn, LongForm]
  interval_cases k <;> omega

/-- Masking a byte with ones is subtracting it from `255`. -/
theorem toNat_xor_ones (b : UInt8) : (b ^^^ 0xff).toNat = 255 - b.toNat := by
  have h : ∀ i < 256, i ^^^ 255 = 255 - i := by decide +kernel
  exact h _ b.toNat_lt

/-- The word of eight to ten bytes reads as its last eight bytes. -/
theorem readSignedNumIncreasing_long_word (h₁ : 5 ≤ k) (h₂ : k ≤ 7)
    (hmin : -2 ^ 63 ≤ n) (hmax : n < 2 ^ 63) (hfit : FitsIn (k + 3) n) (rest : Bytes) :
    readSignedNumIncreasing (bigEndian (k + 3) (signedCode (k + 3) n) ++ rest) =
      finishSignedNum (bigEndian (k + 3) (signedCode (k + 3) n) ++ rest) (k + 3)
        (shiftInBytes 0 (bigEndian 8 (signedCode (k + 3) n))) := by
  have hlast : ((bigEndian (k + 3) (signedCode (k + 3) n) ++ rest).drop (k + 3 - 8)).take 8 =
      bigEndian 8 (signedCode (k + 3) n) := by
    have h := drop_bigEndian (k + 3 - 8) 8 (signedCode (k + 3) n)
    rw [Nat.sub_add_cancel (by omega)] at h
    rw [drop_append_of_le_length (by simp; omega), h]
    exact take_left' (length_bigEndian _ _)
  rw [← hlast]
  rcases lt_or_le n 0 with h0 | h0
  · obtain ⟨hfirst, hrest⟩ := longBytes_of_neg h₁ h₂ h0 hmin hfit
    refine readSignedNumIncreasing_long (decide_eq_true ?_) ?_ ?_ (by simp)
    · rw [ofNat_eq_of_mod_eq (b := 0) hfirst]
      decide
    · rw [ofNat_eq_of_mod_eq (b := 0) hfirst]
      decide
    · simpa only [if_true, toNat_xor_ones, UInt8.toNat_ofNat'] using hrest
  · obtain ⟨hfirst, hrest⟩ := longBytes_of_nonneg h₁ h₂ h0 hmax hfit
    refine readSignedNumIncreasing_long (decide_eq_false ?_) ?_ ?_ (by simp)
    · rw [ofNat_eq_of_mod_eq (b := 255) hfirst]
      decide
    · rw [ofNat_eq_of_mod_eq (b := 255) hfirst]
      decide
    · simpa only [Bool.false_eq_true, if_false, UInt8.xor_zero, UInt8.toNat_ofNat'] using hrest

/-- The encoding of a number followed by anything reads as the number and leaves exactly what
follows; the assertion on the length holds. -/
theorem readSignedNumIncreasing_write (val : Int64) (rest : Bytes) :
    readSignedNumIncreasing (writeSignedNumIncreasing val ++ rest) = .ok (some (val, rest)) := by
  have hlen := signedEncodingLength_eq val
  have hfit := fitsIn_encodingLength val
  have h₁ := one_le_encodingLength (magnitude val)
  have h₂ := encodingLength_le_ten val
  rw [← hlen] at hfit h₁ h₂
  have hraw := raw_eq_xor_mask h₁ h₂ hfit
  have hword := writeSignedNumIncreasing_eq val
  have hfinish := @finishSignedNum_eq (signedEncodingLength val) val rfl
  generalize signedEncodingLength val = len at *
  have hcode := signedCode_lt hfit
  have hlength : (writeSignedNumIncreasing val ++ rest).length = len + rest.length := by
    simp [hword]
  have hsign : ∀ neg : Bool, neg = decide (val.toInt < 0) →
      (shiftInBytes (if neg then ~~~0 else 0) (bigEndian len (signedCode len val.toInt))).toNat =
        ((if val.toInt < 0 then 2 ^ 64 - 1 else 0) * 256 ^ len + signedCode len val.toInt) % 2 ^
          64 := by
    intro neg hneg
    rw [shiftInBytes_toNat, foldl_bigEndian, Nat.mod_eq_of_lt hcode]
    by_cases h0 : val.toInt < 0
    · simp [hneg, h0]
    · simp [hneg, h0]
  rcases Nat.lt_or_ge len 8 with h8 | h8
  · obtain ⟨k, rfl⟩ : ∃ k, len = k + 1 := ⟨len - 1, by omega⟩
    have hsrc : writeSignedNumIncreasing val ++ rest =
        UInt8.ofNat (signedCode (k + 1) val.toInt / 256 ^ k) ::
          (bigEndian k (signedCode (k + 1) val.toInt) ++ rest) := by
      rw [hword, bigEndian_succ, cons_append]
    have hbyte : signedCode (k + 1) val.toInt / 256 ^ k < 256 :=
      Nat.div_lt_of_lt_mul (by rwa [pow_succ] at hcode)
    have htake : (writeSignedNumIncreasing val ++ rest).take (k + 1) =
        bigEndian (k + 1) (signedCode (k + 1) val.toInt) := by
      rw [hword]
      exact take_left' (length_bigEndian _ _)
    obtain ⟨hge, hlt⟩ := hfit
    rcases lt_or_le val.toInt 0 with h0 | h0
    · have hrange : 2 ^ (7 - (k + 1)) ≤ signedCode (k + 1) val.toInt / 256 ^ k ∧
          signedCode (k + 1) val.toInt / 256 ^ k < 2 ^ (8 - (k + 1)) := by
        rw [signedCode_of_neg h0]
        have hk : k < 7 := by omega
        interval_cases k <;> omega
      obtain ⟨hneg, hne, hl⟩ := firstByte_of_neg (k + 1) h8 _ hbyte ⟨h₁, hrange⟩
      rw [readSignedNumIncreasing_short hsrc (decide_eq_true hneg) hne hl (by omega), htake]
      apply hfinish
      rw [hsign true (by simp [h0]), ← hraw]
      simp [h0, Nat.le_of_lt_succ h8]
    · have hrange : 256 - 2 ^ (8 - (k + 1)) ≤ signedCode (k + 1) val.toInt / 256 ^ k ∧
          signedCode (k + 1) val.toInt / 256 ^ k < 256 - 2 ^ (7 - (k + 1)) := by
        rw [signedCode_of_nonneg h0]
        have hk : k < 7 := by omega
        interval_cases k <;> omega
      obtain ⟨hneg, hne, hl⟩ := firstByte_of_nonneg (k + 1) h8 _ hbyte ⟨h₁, hrange⟩
      rw [readSignedNumIncreasing_short hsrc (decide_eq_false hneg) hne hl (by omega), htake]
      apply hfinish
      rw [hsign false (by simp [h0]), ← hraw]
      simp [not_lt.mpr h0]
  · obtain ⟨k, rfl⟩ : ∃ k, len = k + 3 := ⟨len - 3, by omega⟩
    have hlong := readSignedNumIncreasing_long_word (by omega) (by omega) val.le_toInt
      val.toInt_lt hfit rest
    rw [← hword] at hlong
    rw [hlong]
    apply hfinish
    rw [← hraw, if_neg (by omega), shiftInBytes_toNat, foldl_bigEndian]
    omega

/-- Encodings compare as the numbers do and none is a prefix of another one, and a number is read
back in front of anything. -/
theorem orderedCode_numbers :
    (∀ a b, writeSignedNumIncreasing a < writeSignedNumIncreasing b ↔ a < b) ∧
    (∀ a b, writeSignedNumIncreasing a <+: writeSignedNumIncreasing b → a = b) ∧
    ∀ val rest, readSignedNumIncreasing (writeSignedNumIncreasing val ++ rest) =
      .ok (some (val, rest)) := by
  refine ⟨fun a b => writeSignedNumIncreasing_orderCode.lt_iff, fun a b h => ?_,
    readSignedNumIncreasing_write⟩
  rw [← append_nil (writeSignedNumIncreasing b)] at h
  exact writeSignedNumIncreasing_orderCode.prefix_append_iff.mp h

end OrderedCode

end Firebase.Firestore.Util
