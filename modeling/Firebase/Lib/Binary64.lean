import Mathlib

/-!
# Doubles as integers

A finite double is an integer multiple of `2 ^ -1074`, the least positive double.
`Binary64.position` is that integer, continued to the infinities and to NaN so that it puts all
doubles in one line, with NaN first.

The doubles are those of Lean, whose operations unpack the bits to a sign, a
mantissa and an exponent.  `Canonical` is what unpacking ensures of them.
-/

namespace Firebase.Lib.Binary64

open Float.Model Float.Model.UnpackedFloat
open Nat (two_pow_pos mod_lt)

/-! ## Unpacked doubles -/

/-- The mantissa has 53 bits, unless the exponent is the least one. -/
def Canonical : UnpackedFloat → Prop
  | .finite _ m e _ => m < 2 ^ 53 ∧ (2 ^ 52 ≤ m ∨ e = -1074) ∧ -1074 ≤ e ∧ e ≤ 971
  | _ => True

/-- The value in units of `2 ^ -1074`, with the infinities outside of all finite values and NaN
before everything. -/
def rank : UnpackedFloat → Int
  | .notANumber => -2 ^ 2099
  | .infinity s => s.apply (2 ^ 2098)
  | .zero _ => 0
  | .finite s m e _ => s.apply (m * 2 ^ (e + 1074).toNat)

variable {m : Nat} {e : Int}

theorem magnitude_lt (hm : m < 2 ^ 53) (he : e ≤ 971) :
    (m * 2 ^ (e + 1074).toNat : Int) < 2 ^ 2098 := by
  have hk : (e + 1074).toNat ≤ 2045 := by omega
  have hlt : m * 2 ^ (e + 1074).toNat < 2 ^ 53 * 2 ^ 2045 :=
    Nat.mul_lt_mul_of_lt_of_le hm (Nat.pow_le_pow_right two_pos hk) (two_pow_pos _)
  rw [← pow_add] at hlt
  exact_mod_cast hlt

theorem magnitude_pos (hm : 0 < m) (k : Nat) : (0 : Int) < m * 2 ^ k := by
  positivity

/-- Of two canonical values the one with the larger exponent is the larger one. -/
theorem magnitude_lt_of_lt {m₁ m₂ : Nat} {e₁ e₂ : Int} (hm₁ : m₁ < 2 ^ 53)
    (hm₂ : 2 ^ 52 ≤ m₂ ∨ e₂ = -1074) (he₁ : -1074 ≤ e₁) (h : e₁ < e₂) :
    m₁ * 2 ^ (e₁ + 1074).toNat < m₂ * 2 ^ (e₂ + 1074).toNat := by
  have hm₂ : 2 ^ 52 ≤ m₂ := hm₂.resolve_right (by omega)
  have hk : (e₁ + 1074).toNat + 1 ≤ (e₂ + 1074).toNat := by omega
  calc m₁ * 2 ^ (e₁ + 1074).toNat
      < 2 ^ 53 * 2 ^ (e₁ + 1074).toNat := Nat.mul_lt_mul_of_pos_right hm₁ (by positivity)
    _ = 2 ^ 52 * 2 ^ ((e₁ + 1074).toNat + 1) := by rw [← pow_add, ← pow_add]; congr 1; omega
    _ ≤ m₂ * 2 ^ (e₂ + 1074).toNat := Nat.mul_le_mul hm₂ (Nat.pow_le_pow_right two_pos hk)

theorem compare_map {α : Type} [LinearOrder α] {f : α → Int} (hf : StrictMono f) (a b : α) :
    compare (f a) (f b) = compare a b := by
  rw [← cmp_eq_compare, ← cmp_eq_compare, hf.cmp_map_eq]

theorem compare_mul_right {k : Int} (hk : 0 < k) (a b : Int) :
    compare (a * k) (b * k) = compare a b :=
  compare_map (strictMono_mul_right_of_pos hk) a b

theorem compare_natCast (a b : Nat) : compare (a : Int) b = compare a b :=
  compare_map Nat.strictMono_cast a b

theorem compare_neg_neg (a b : Int) : compare (-a) (-b) = (compare a b).swap := by
  rw [← cmp_eq_compare, ← cmp_eq_compare, cmp_swap]
  exact StrictAnti.cmp_map_eq (fun _ _ => neg_lt_neg) a b

theorem compare_magnitude {m₁ m₂ : Nat} {e₁ e₂ : Int} (hm₁ : m₁ < 2 ^ 53) (hm₂ : m₂ < 2 ^ 53)
    (hn₁ : 2 ^ 52 ≤ m₁ ∨ e₁ = -1074) (hn₂ : 2 ^ 52 ≤ m₂ ∨ e₂ = -1074) (he₁ : -1074 ≤ e₁)
    (he₂ : -1074 ≤ e₂) : (compare e₁ e₂).then (compare m₁ m₂) =
      compare (m₁ * 2 ^ (e₁ + 1074).toNat : Int) (m₂ * 2 ^ (e₂ + 1074).toNat) := by
  rcases lt_trichotomy e₁ e₂ with hlt | rfl | hgt
  · have hmag : (m₁ * 2 ^ (e₁ + 1074).toNat : Int) < m₂ * 2 ^ (e₂ + 1074).toNat :=
      mod_cast magnitude_lt_of_lt hm₁ hn₂ he₁ hlt
    rw [compare_lt_iff_lt.mpr hlt, compare_lt_iff_lt.mpr hmag]
    rfl
  · rw [compare_eq_iff_eq.mpr rfl, compare_mul_right (by positivity), compare_natCast]
    rfl
  · have hmag : (m₂ * 2 ^ (e₂ + 1074).toNat : Int) < m₁ * 2 ^ (e₁ + 1074).toNat :=
      mod_cast magnitude_lt_of_lt hm₂ hn₁ he₂ hgt
    rw [compare_gt_iff_gt.mpr hgt, compare_gt_iff_gt.mpr hmag]
    rfl

theorem rank_bounds {s : Sign} {hm : 0 < m} (hx : Canonical (.finite s m e hm)) :
    -2 ^ 2098 < rank (.finite s m e hm) ∧ rank (.finite s m e hm) < 2 ^ 2098 := by
  have hmag := magnitude_lt hx.1 hx.2.2.2
  have hpos := magnitude_pos hm (e + 1074).toNat
  cases s
  · exact ⟨neg_lt_neg hmag, by simp only [rank, Sign.apply]; omega⟩
  · exact ⟨by simp only [rank, Sign.apply]; omega, hmag⟩

theorem rank_negative_lt {hm : 0 < m} : rank (.finite .negative m e hm) < 0 :=
  neg_neg_of_pos (magnitude_pos hm _)

theorem lt_rank_positive {hm : 0 < m} : 0 < rank (.finite .positive m e hm) :=
  magnitude_pos hm _

/-- The comparison of doubles is the comparison of their positions. -/
theorem compare_eq_rank {x y : UnpackedFloat} (hx : Canonical x) (hy : Canonical y)
    (hx' : x.isNaN = false) (hy' : y.isNaN = false) :
    x.compare y = some (compare (rank x) (rank y)) := by
  have hlt : ∀ {a b : Int}, a < b → some Ordering.lt = some (compare a b) :=
    fun h => congrArg some (compare_lt_iff_lt.mpr h).symm
  have hgt : ∀ {a b : Int}, b < a → some Ordering.gt = some (compare a b) :=
    fun h => congrArg some (compare_gt_iff_gt.mpr h).symm
  have heq : ∀ a : Int, some Ordering.eq = some (compare a a) :=
    fun a => congrArg some (compare_eq_iff_eq.mpr rfl).symm
  have htop : (0 : Int) < 2 ^ 2098 := by positivity
  have hbottom : -2 ^ 2098 < (0 : Int) := neg_neg_of_pos htop
  cases x with
  | notANumber => cases hx'
  | infinity s =>
    cases y with
    | notANumber => cases hy'
    | infinity s' =>
      cases s <;> cases s'
      · exact heq _
      · exact hlt (hbottom.trans htop)
      · exact hgt (hbottom.trans htop)
      · exact heq _
    | zero s' =>
      cases s
      · exact hlt hbottom
      · exact hgt htop
    | finite s' m e hm =>
      cases s
      · exact hlt (rank_bounds hy).1
      · exact hgt (rank_bounds hy).2
  | zero s =>
    cases y with
    | notANumber => cases hy'
    | infinity s' =>
      cases s'
      · exact hgt hbottom
      · exact hlt htop
    | zero s' => exact heq _
    | finite s' m e hm =>
      cases s'
      · exact hgt rank_negative_lt
      · exact hlt lt_rank_positive
  | finite s m e hm =>
    cases y with
    | notANumber => cases hy'
    | infinity s' =>
      cases s'
      · exact hgt (rank_bounds hx).1
      · exact hlt (rank_bounds hx).2
    | zero s' =>
      cases s
      · exact hlt rank_negative_lt
      · exact hgt lt_rank_positive
    | finite s' m' e' hm' =>
      have hcompare := compare_magnitude hx.1 hy.1 hx.2.1 hy.2.1 hx.2.2.1 hy.2.2.1
      cases s <;> cases s'
      · simp only [UnpackedFloat.compare, rank, Sign.apply, hcompare, compare_neg_neg]
      · exact hlt (rank_negative_lt.trans lt_rank_positive)
      · exact hgt (rank_negative_lt.trans lt_rank_positive)
      · simp only [UnpackedFloat.compare, rank, Sign.apply, hcompare]

/-! ## The bits -/

/-- The fields of a word. -/
def exponentBits (bits : Nat) : Nat := bits / 2 ^ 52 % 2 ^ 11

def fractionBits (bits : Nat) : Nat := bits % 2 ^ 52

/-- The magnitude in units of `2 ^ -1074`. -/
def units (bits : Nat) : Nat :=
  if exponentBits bits = 0 then fractionBits bits
  else (2 ^ 52 + fractionBits bits) * 2 ^ (exponentBits bits - 1)

/-- The number with the sign of a word. -/
def signed (bits : Nat) (n : Int) : Int := if bits / 2 ^ 63 = 1 then -n else n

section Bits

variable (b : BitVec Format.binary64.numBits)

theorem toNat_unpackMantissa : (unpackMantissa b).toNat = fractionBits b.toNat := by
  rfl

theorem toNat_unpackExponent : (unpackExponent b).toNat = exponentBits b.toNat := by
  rw [unpackExponent, BitVec.toNat_cast, BitVec.extractLsb_toNat, Nat.shiftRight_eq_div_pow]
  rfl

theorem toNat_unpackSign : (unpackSign b).toNat = b.toNat / 2 ^ 63 := by
  have hlt : b.toNat < 2 ^ 64 := b.isLt
  rw [unpackSign, BitVec.toNat_cast, BitVec.extractLsb_toNat, Nat.shiftRight_eq_div_pow]
  show b.toNat / 2 ^ 63 % 2 ^ 1 = _
  omega

theorem apply_unpackSign (n : Int) : (Sign.ofBitVec (unpackSign b)).apply n = signed b.toNat n := by
  have hsign := toNat_unpackSign b
  have hbit : unpackSign b = 0#1 ∨ unpackSign b = 1#1 := by
    generalize unpackSign b = v
    revert v
    decide
  rcases hbit with hbit | hbit
  · rw [hbit] at hsign ⊢
    rw [signed, ← hsign]
    rfl
  · rw [hbit] at hsign ⊢
    rw [signed, ← hsign]
    rfl

/-- The word of an infinity or of NaN. -/
theorem unpackExponent_eq_neg_one_iff : unpackExponent b = -1#_ ↔ exponentBits b.toNat = 2047 := by
  rw [← BitVec.toNat_inj, toNat_unpackExponent]
  rfl

/-- The word of zero or of a number below all normal ones. -/
theorem unpackExponent_eq_zero_iff : unpackExponent b = 0#_ ↔ exponentBits b.toNat = 0 := by
  rw [← BitVec.toNat_inj, toNat_unpackExponent]
  rfl

theorem unpackMantissa_eq_zero_iff : unpackMantissa b = 0#_ ↔ fractionBits b.toNat = 0 := by
  rw [← BitVec.toNat_inj]
  rfl

/-- What unpacking a word gives. -/
theorem unpack_spec : Canonical (unpack Format.binary64 b) ∧
    ((unpack Format.binary64 b).isNaN = false →
      rank (unpack Format.binary64 b) = signed b.toNat (units b.toNat)) := by
  have hfraction : fractionBits b.toNat < 2 ^ 52 := mod_lt _ (by positivity)
  have hexponent : exponentBits b.toNat < 2 ^ 11 := mod_lt _ (by positivity)
  unfold UnpackedFloat.unpack
  dsimp only
  split_ifs with hall hzero hleast hzero'
  · refine ⟨trivial, fun _ => ?_⟩
    rw [unpackExponent_eq_neg_one_iff] at hall
    rw [unpackMantissa_eq_zero_iff] at hzero
    have hunits : units b.toNat = 2 ^ 2098 := by
      rw [units, if_neg (by omega), hall, hzero, Nat.add_zero, ← pow_add]
    rw [rank, apply_unpackSign, hunits, Nat.cast_pow, Nat.cast_two]
  · exact ⟨trivial, nofun⟩
  · refine ⟨trivial, fun _ => ?_⟩
    rw [unpackExponent_eq_zero_iff] at hleast
    rw [unpackMantissa_eq_zero_iff] at hzero'
    rw [rank, units, if_pos hleast, hzero', signed, Nat.cast_zero, neg_zero, ite_self]
  · rw [unpackExponent_eq_zero_iff] at hleast
    have hexp : ((unpackExponent b).toNat : Int) - (Format.binary64.exponentBias +
        Format.binary64.mantissaBitsWithoutImplicit) + 1 = -1074 := by
      rw [toNat_unpackExponent, hleast]
      rfl
    refine ⟨?_, fun _ => ?_⟩
    · rw [Canonical, hexp]
      exact ⟨by omega, .inr rfl, le_rfl, by decide⟩
    · rw [rank, hexp, toNat_unpackMantissa, apply_unpackSign, units, if_pos hleast]
      simp
  · rw [unpackExponent_eq_neg_one_iff] at hall
    rw [unpackExponent_eq_zero_iff] at hleast
    have hexp : ((unpackExponent b).toNat : Int) - (Format.binary64.exponentBias +
        Format.binary64.mantissaBitsWithoutImplicit) = exponentBits b.toNat - 1075 := by
      rw [toNat_unpackExponent]
      rfl
    have hmantissa : (1#1 ++ unpackMantissa b).toNat = 2 ^ 52 + fractionBits b.toNat := by
      exact (Nat.two_pow_add_eq_or_of_lt hfraction 1).symm
    refine ⟨?_, fun _ => ?_⟩
    · rw [Canonical, hexp]
      exact ⟨by omega, .inl (by omega), by omega, by omega⟩
    · rw [rank, hexp, hmantissa, apply_unpackSign, units, if_neg hleast]
      have hshift : ((exponentBits b.toNat : Int) - 1075 + 1074).toNat =
          exponentBits b.toNat - 1 := by omega
      rw [hshift, Nat.cast_mul, Nat.cast_pow, Nat.cast_two]

end Bits

/-! ## Doubles -/

/-- The place of a double in the line of all doubles. -/
def position (x : Float) : Int := rank x.toModel.unpack

theorem canonical_unpack (x : Float) : Canonical x.toModel.unpack :=
  (unpack_spec x.toModel.toBits.toBitVec).1

variable {x : Float}

/-- The position of a double that is a number can be read off its bits. -/
theorem position_eq_bits (hx : x.isNaN = false) :
    position x = signed x.toBits.toNat (units x.toBits.toNat) :=
  (unpack_spec x.toModel.toBits.toBitVec).2 hx

/-- NaN comes first. -/
theorem position_of_isNaN (hx : x.isNaN = true) : position x = -2 ^ 2099 := by
  change x.toModel.unpack.isNaN = true at hx
  rw [position]
  cases hunpack : x.toModel.unpack with
  | notANumber => rfl
  | infinity | zero | finite =>
    rw [hunpack] at hx
    cases hx

theorem natAbs_position_of_isInf (hx : x.isInf = true) : (position x).natAbs = 2 ^ 2098 := by
  change x.toModel.unpack.isInf = true at hx
  rw [position]
  cases hunpack : x.toModel.unpack with
  | notANumber | zero | finite =>
    rw [hunpack] at hx
    cases hx
  | infinity s =>
    cases s with
    | negative => exact (Int.natAbs_neg _).trans (Int.natAbs_pow 2 2098)
    | positive => exact Int.natAbs_pow 2 2098

theorem neg_le_position (hx : x.isNaN = false) : -2 ^ 2098 ≤ position x := by
  have hcanonical := canonical_unpack x
  have htop : (0 : Int) < 2 ^ 2098 := by positivity
  change x.toModel.unpack.isNaN = false at hx
  rw [position]
  cases hunpack : x.toModel.unpack with
  | notANumber =>
    rw [hunpack] at hx
    cases hx
  | infinity s => cases s <;> simp only [rank, Sign.apply] <;> omega
  | zero s => exact neg_nonpos.mpr htop.le
  | finite s m e hm =>
    rw [hunpack] at hcanonical
    exact (rank_bounds hcanonical).1.le

variable {x y : Float}

/-- NaN comes before all numbers. -/
theorem position_lt_position (hx : x.isNaN = true) (hy : y.isNaN = false) :
    position x < position y := by
  refine lt_of_lt_of_le ?_ (neg_le_position hy)
  rw [position_of_isNaN hx]
  have htop : 0 < 2 ^ 2098 := by positivity
  omega

theorem compare_eq_position (hx : x.isNaN = false) (hy : y.isNaN = false) :
    x.toModel.unpack.compare y.toModel.unpack = some (compare (position x) (position y)) :=
  compare_eq_rank (canonical_unpack x) (canonical_unpack y) hx hy

/-- NaN cannot be compared with anything. -/
theorem compare_eq_none {x y : UnpackedFloat} (h : x.isNaN = true ∨ y.isNaN = true) :
    x.compare y = none := by
  rcases h with h | h
  · cases x with
    | notANumber => rfl
    | infinity | zero | finite => cases h
  · cases y with
    | notANumber => cases x <;> rfl
    | infinity | zero | finite => cases h

theorem lt_iff_compare : x < y ↔ x.toModel.unpack.compare y.toModel.unpack = some .lt := by
  show decide ((x.toModel.unpack.compare y.toModel.unpack == some .lt) = true) = true ↔ _
  rw [decide_eq_true_iff, beq_iff_eq]

theorem le_iff_compare : x ≤ y ↔ (x.toModel.unpack.compare y.toModel.unpack).any (·.isLE) := by
  show decide ((x.toModel.unpack.compare y.toModel.unpack).any (·.isLE) = true) = true ↔ _
  rw [decide_eq_true_iff]

theorem beq_iff_compare : x == y ↔ x.toModel.unpack.compare y.toModel.unpack = some .eq := by
  show (x.toModel.unpack.compare y.toModel.unpack == some .eq) = true ↔ _
  rw [beq_iff_eq]

/-- Neither of two doubles is NaN, or they cannot be compared. -/
theorem isNaN_or_compare_eq_none (x y : Float) : (x.isNaN = false ∧ y.isNaN = false) ∨
    (¬(x.isNaN = false ∧ y.isNaN = false) ∧
      x.toModel.unpack.compare y.toModel.unpack = none) := by
  by_cases hnan : x.isNaN = false ∧ y.isNaN = false
  · exact .inl hnan
  · refine .inr ⟨hnan, compare_eq_none ?_⟩
    rwa [not_and_or, Bool.not_eq_false, Bool.not_eq_false] at hnan

/-- Numbers compare as their positions; nothing compares with a NaN. -/
theorem compare_eq_some_iff : x.toModel.unpack.compare y.toModel.unpack = some o ↔
    (x.isNaN = false ∧ y.isNaN = false) ∧ compare (position x) (position y) = o := by
  rcases isNaN_or_compare_eq_none x y with hnan | ⟨hnan, hnone⟩
  · rw [compare_eq_position hnan.1 hnan.2, Option.some_inj]
    exact (and_iff_right hnan).symm
  · rw [hnone]
    exact ⟨nofun, fun h => absurd h.1 hnan⟩

theorem lt_iff : x < y ↔ (x.isNaN = false ∧ y.isNaN = false) ∧ position x < position y := by
  rw [lt_iff_compare, compare_eq_some_iff, compare_lt_iff_lt]

theorem le_iff : x ≤ y ↔ (x.isNaN = false ∧ y.isNaN = false) ∧ position x ≤ position y := by
  simp only [le_iff_compare, Option.any_eq_true, compare_eq_some_iff, and_assoc, exists_and_left,
    exists_eq_left', Ordering.isLE_iff_ne_gt, compare_le_iff_le]

theorem beq_iff : x == y ↔ (x.isNaN = false ∧ y.isNaN = false) ∧ position x = position y := by
  rw [beq_iff_compare, compare_eq_some_iff, compare_eq_iff_eq]

/-! ## Integers -/

theorem unpackSign_packComponents {spec : Format} {sign : Sign}
    {exponent : BitVec spec.exponentBits} {mantissa : BitVec spec.mantissaBitsWithoutImplicit} :
    unpackSign (packComponents spec sign exponent mantissa) = sign.toBitVec := by
  ext i hi
  obtain rfl : i = 0 := by omega
  simp [unpackSign, packComponents, BitVec.getElem_append, Nat.add_comm]

theorem ofBitVec_toBitVec (sign : Sign) : Sign.ofBitVec sign.toBitVec = sign := by
  cases sign <;> rfl

theorem log2_eq (hlo : 2 ^ 52 ≤ m) (hhi : m < 2 ^ 53) (j : Nat) : (m * 2 ^ j).log2 = 52 + j := by
  rw [Nat.log2_eq_log_two]
  refine Nat.log_eq_of_pow_le_of_lt_pow ?_ ?_
  · rw [pow_add]
    exact Nat.mul_le_mul_right _ hlo
  · rw [show 52 + j + 1 = 53 + j by omega, pow_add]
    exact Nat.mul_lt_mul_of_pos_right hhi (two_pow_pos j)

/-- A normal number is what it was after packing and unpacking. -/
theorem unpack_pack {s : Sign} (hm : 0 < m) (hlo : 2 ^ 52 ≤ m)
    (hhi : m < 2 ^ 53) (helo : -1074 ≤ e) (hehi : e ≤ 971) :
    unpack Format.binary64 (pack Format.binary64 (.finite s m e hm)) =
      .finite s m e hm := by
  have hbias : (Format.binary64.exponentBias : Int) +
      Format.binary64.mantissaBitsWithoutImplicit = 1075 := rfl
  have hlog : m.log2 + 1 = Format.binary64.mantissaBits := by
    have := log2_eq hlo hhi 0
    rw [pow_zero, mul_one] at this
    rw [this]
    rfl
  obtain ⟨k, hk⟩ : ∃ k : Nat, e + 1075 = k := ⟨(e + 1075).toNat, by omega⟩
  have hbiased : (e + Format.binary64.exponentBias +
      Format.binary64.mantissaBitsWithoutImplicit).toNat = k := by
    rw [add_assoc, hbias, hk]
    rfl
  have hpack : pack Format.binary64 (.finite s m e hm) =
      packComponents Format.binary64 s (BitVec.ofNat _ k) (BitVec.ofNat _ m) := by
    rw [UnpackedFloat.pack, hbiased, if_neg (by show ¬2 ^ 11 ≤ k + 1; omega), if_pos hlog]
  rw [hpack, UnpackedFloat.unpack]
  simp only [unpackExponent_packComponents, unpackMantissa_packComponents,
    unpackSign_packComponents, ofBitVec_toBitVec]
  have hexponent : (BitVec.ofNat 11 k).toNat = k := Nat.mod_eq_of_lt (by omega)
  have hne : BitVec.ofNat 11 k ≠ -1#_ ∧ BitVec.ofNat 11 k ≠ 0#_ := by
    constructor
    · intro heq
      have htop : k = 2047 := hexponent.symm.trans (congrArg BitVec.toNat heq)
      omega
    · intro heq
      have hzero : k = 0 := hexponent.symm.trans (congrArg BitVec.toNat heq)
      omega
  have hmantissa : (1#1 ++ BitVec.ofNat 52 m).toNat = m := by
    have hmod : (BitVec.ofNat 52 m).toNat = m - 2 ^ 52 := by
      rw [BitVec.toNat_ofNat]
      omega
    rw [BitVec.toNat_append, hmod]
    refine (Nat.two_pow_add_eq_or_of_lt (show m - 2 ^ 52 < 2 ^ 52 by omega) 1).symm.trans ?_
    omega
  rw [if_neg hne.1, if_neg hne.2]
  congr 1
  rw [hbias]
  omega

theorem repeat_shiftRightOne (m j : Nat) :
    Nat.repeat ExtendedMantissa.shiftRightOne j ⟨m * 2 ^ j, false, false⟩ = ⟨m, false, false⟩ := by
  induction j generalizing m with
  | zero => simp [Nat.repeat]
  | succ j ih =>
    rw [pow_succ', ← mul_assoc, Nat.repeat, ih (m * 2)]
    simp [ExtendedMantissa.shiftRightOne]

/-- A number that is in normal form up to trailing zeros is brought to its normal form. -/
theorem shiftToTargetExponent_exact (hlo : 2 ^ 52 ≤ m) (hhi : m < 2 ^ 53)
    (j : Nat) (he : -1074 ≤ e + j) :
    shiftToTargetExponent Format.binary64 (m * 2 ^ j) e .exact = (⟨m, false, false⟩, e + j) := by
  have htarget : Format.binary64.targetExponent (totalExponent (m * 2 ^ j) e) = e + j := by
    rw [totalExponent, log2_eq hlo hhi j]
    show max (((52 + j) : Int) + 1 + e - 53) (-1074) = e + j
    omega
  rw [shiftToTargetExponent, htarget, shiftToExponent, add_sub_cancel_left]
  exact congrArg (·, e + j) (repeat_shiftRightOne m j)

theorem roundWithAccuracy_exact (s : Sign) (hm : 0 < m) (hlo : 2 ^ 52 ≤ m)
    (hhi : m < 2 ^ 53) (j : Nat) (he : -1074 ≤ e + j) :
    roundWithAccuracy Format.binary64 s (m * 2 ^ j) e .exact = .finite s m (e + j) hm := by
  have hagain := shiftToTargetExponent_exact hlo hhi 0 (e := e + j) (by simpa using he)
  rw [pow_zero, mul_one, Nat.cast_zero, add_zero] at hagain
  rw [roundWithAccuracy, shiftToTargetExponent_exact hlo hhi j he]
  dsimp only
  rw [show ExtendedMantissa.roundedMantissa ⟨m, false, false⟩ = m from rfl, hagain]
  exact dif_neg hm.ne'

section Exact

/-- The natural number `n` is `m * 2 ^ (j - 52)`, with 53 bits in `m`. -/
structure Normal (n m j : Nat) : Prop where
  lo : 2 ^ 52 ≤ m
  hi : m < 2 ^ 53
  eq : n * 2 ^ 52 = m * 2 ^ j
  le : j ≤ 1023

variable {n m j : Nat}

section

variable (h : Normal n m j)

include h

theorem Normal.pos : 0 < m := (two_pow_pos 52).trans_le h.lo

theorem Normal.ne_zero : n ≠ 0 := by
  rintro rfl
  have heq := h.eq
  exact absurd heq.symm (Nat.mul_pos h.pos (two_pow_pos j)).ne'

theorem Normal.log2 : n.log2 = j := by
  rw [Nat.log2_eq_log_two]
  refine Nat.log_eq_of_pow_le_of_lt_pow ?_ ?_
  · refine Nat.le_of_mul_le_mul_right ?_ (two_pow_pos 52)
    rw [h.eq, mul_comm]
    exact Nat.mul_le_mul_right _ h.lo
  · refine Nat.lt_of_mul_lt_mul_right (a := 2 ^ 52) ?_
    rw [h.eq, pow_succ, mul_assoc, mul_comm]
    exact Nat.mul_lt_mul_of_pos_left h.hi (two_pow_pos j)

theorem Normal.unpack_pack (s : Sign) : unpack Format.binary64
      (pack Format.binary64 (.finite s m (j - 52) h.pos)) =
        .finite s m (j - 52) h.pos := by
  have hle := h.le
  exact Binary64.unpack_pack h.pos h.lo h.hi (by omega) (by omega)

/-- Multiplying by one changes nothing. -/
theorem Normal.mul_one : mul Format.binary64 (.finite .positive m (j - 52) h.pos)
      (.finite .positive (2 ^ 52) (-52) (by decide)) = .finite .positive m (j - 52) h.pos := by
  refine (roundWithAccuracy_exact _ h.pos h.lo h.hi 52 (by omega)).trans ?_
  congr 1
  omega

theorem Normal.ofNat (hj : j ≤ 52) :
    UnpackedFloat.ofNat Format.binary64 n = .finite .positive m (j - 52) h.pos := by
  have hcompare : compare (n : Int) 0 = .gt :=
    compare_gt_iff_gt.mpr (Int.natCast_pos.mpr (Nat.pos_of_ne_zero h.ne_zero))
  have htarget : Format.binary64.targetExponent (totalExponent n 0) = j - 52 := by
    rw [totalExponent, h.log2]
    show max ((j : Int) + 1 + 0 - 53) (-1074) = j - 52
    omega
  have hshift : n <<< (0 - ((j : Int) - 52)).toNat = m * 2 ^ 0 := by
    rw [show (0 - ((j : Int) - 52)).toNat = 52 - j by omega, Nat.shiftLeft_eq, pow_zero,
      Nat.mul_one]
    refine Nat.eq_of_mul_eq_mul_right (two_pow_pos j) ?_
    rw [mul_assoc, ← pow_add, Nat.sub_add_cancel hj, h.eq]
  rw [UnpackedFloat.ofNat, UnpackedFloat.ofInt, UnpackedFloat.normalize, hcompare]
  dsimp only
  rw [Int.toNat_natCast, UnpackedFloat.round, htarget, decreaseExponent]
  rw [hshift]
  refine (roundWithAccuracy_exact _ h.pos h.lo h.hi 0 (by omega)).trans ?_
  congr 1
  omega

theorem Normal.ofScientific :
    ofScientific Format.binary64 n 0 = .finite .positive m (j - 52) h.pos := by
  have hsafe : ¬0 < -((2 ^ Format.binary64.exponentBits : Int) + n.log2) := by
    have : (0 : Int) < 2 ^ Format.binary64.exponentBits := by positivity
    omega
  have hmul : UnpackedFloat.ofScientific Format.binary64 n 0 =
      roundWithAccuracy Format.binary64 .positive (n <<< 53 * 1) (-53 + 0) .exact := by
    rw [UnpackedFloat.ofScientific, dif_neg h.ne_zero, if_neg (by decide), if_neg hsafe,
      if_pos le_rfl]
    rfl
  have hshift : n <<< 53 * 1 = m * 2 ^ (j + 1) := by
    rw [Nat.shiftLeft_eq, Nat.mul_one, pow_succ, ← mul_assoc, h.eq, pow_succ, mul_assoc]
  have hexponent : (-53 + 0 : Int) + (j + 1 : Nat) = j - 52 := by omega
  rw [hmul, hshift, roundWithAccuracy_exact .positive h.pos h.lo h.hi (j + 1) (by omega)]
  simp only [hexponent]

/-- A natural number with at most 53 significant bits is converted exactly. -/
theorem Normal.unpack_ofNat :
    (Float.ofNat n).toModel.unpack = .finite .positive m (j - 52) h.pos := by
  by_cases hsmall : n < 2 ^ 53
  · -- The number is rounded twice, when it is converted and when it is multiplied by one.
    have hj : j ≤ 52 := by
      rw [← h.log2]
      exact Nat.lt_succ_iff.mp ((Nat.log2_lt h.ne_zero).mpr hsmall)
    have hdef : Float.ofNat n = n.toUInt64.toFloat * Float.ofBits 0x3FF0000000000000 := by
      exact dif_pos ⟨hsmall, by decide⟩
    have hconverted : n.toUInt64.toFloat.toModel.unpack = .finite .positive m (j - 52) h.pos := by
      have hmod : n.toUInt64.toNat = n := Nat.mod_eq_of_lt (by omega)
      show UnpackedFloat.unpack Format.binary64 (UnpackedFloat.pack Format.binary64
        (UnpackedFloat.ofNat Format.binary64 n.toUInt64.toNat)) = _
      rw [hmod, h.ofNat hj, h.unpack_pack]
    have hone : (Float.ofBits 0x3FF0000000000000).toModel.unpack =
        .finite .positive (2 ^ 52) (-52) (by decide) := by rfl
    rw [hdef]
    show unpack Format.binary64 (pack Format.binary64
      (mul Format.binary64 n.toUInt64.toFloat.toModel.unpack
        (Float.ofBits 0x3FF0000000000000).toModel.unpack)) = _
    rw [hconverted, hone, h.mul_one, h.unpack_pack]
  · have hdef : Float.ofNat n = .ofModel (.ofScientific n 0) := by
      exact dif_neg fun h => hsmall h.1
    rw [hdef]
    show UnpackedFloat.unpack Format.binary64 (UnpackedFloat.pack Format.binary64
      (UnpackedFloat.ofScientific Format.binary64 n 0)) = _
    rw [h.ofScientific, h.unpack_pack]

theorem Normal.rank_finite (s : Sign) :
    rank (.finite s m (j - 52) h.pos) = s.apply (n * 2 ^ 1074) := by
  have hshift : ((j : Int) - 52 + 1074).toNat = j + 1022 := by omega
  have hmagnitude : m * 2 ^ (j + 1022) = n * 2 ^ 1074 := by
    rw [pow_add, ← mul_assoc, ← h.eq, mul_assoc, ← pow_add]
  rw [rank, hshift]
  exact congrArg s.apply (mod_cast hmagnitude)

end

/-- An integer with at most 53 significant bits is converted exactly. -/
theorem Normal.position_ofInt {z : Int} (h : Normal z.natAbs m j) :
    (Float.ofInt z).isNaN = false ∧ position (Float.ofInt z) = z * 2 ^ 1074 := by
  cases z with
  | ofNat n =>
    have hunpack := h.unpack_ofNat
    constructor
    · show (Float.ofNat n).toModel.unpack.isNaN = false
      rw [show (Float.ofNat n).toModel.unpack = _ from hunpack]
      rfl
    · show rank (Float.ofNat n).toModel.unpack = _
      rw [show (Float.ofNat n).toModel.unpack = _ from hunpack, h.rank_finite]
      rfl
  | negSucc n =>
    have hunpack : (Float.ofInt (.negSucc n)).toModel.unpack =
        .finite .negative m (j - 52) h.pos := by
      show unpack Format.binary64 (pack Format.binary64
        (Float.ofNat (n + 1)).toModel.unpack.neg) = _
      rw [show (Float.ofNat (n + 1)).toModel.unpack = _ from h.unpack_ofNat]
      exact h.unpack_pack .negative
    constructor
    · show (Float.ofInt (.negSucc n)).toModel.unpack.isNaN = false
      rw [hunpack]
      rfl
    · rw [position, hunpack, h.rank_finite]
      exact (neg_mul _ _).symm

theorem position_ofInt_zero : (Float.ofInt 0).isNaN = false ∧ position (Float.ofInt 0) = 0 :=
  ⟨rfl, rfl⟩

/-- A natural number below `2 ^ 53` has at most 53 significant bits. -/
theorem exists_normal_of_lt (hn : n ≠ 0) (hlt : n < 2 ^ 53) : ∃ m j, Normal n m j := by
  have hlog : n.log2 ≤ 52 := Nat.lt_succ_iff.mp ((Nat.log2_lt hn).mpr hlt)
  refine ⟨n * 2 ^ (52 - n.log2), n.log2, ?_, ?_, ?_, by omega⟩
  · calc 2 ^ 52 = 2 ^ n.log2 * 2 ^ (52 - n.log2) := by rw [← pow_add, Nat.add_sub_cancel' hlog]
      _ ≤ n * 2 ^ (52 - n.log2) := Nat.mul_le_mul_right _ (Nat.log2_self_le hn)
  · calc n * 2 ^ (52 - n.log2)
        < 2 ^ (n.log2 + 1) * 2 ^ (52 - n.log2) :=
          Nat.mul_lt_mul_of_pos_right Nat.lt_log2_self (two_pow_pos _)
      _ = 2 ^ 53 := by rw [← pow_add]; congr 1; omega
  · rw [mul_assoc, ← pow_add, Nat.sub_add_cancel hlog]

/-- The integral part of a double has at most 53 significant bits. -/
theorem exists_normal_of_canonical {s : Sign} {m : Nat} (hm : 0 < m)
    (h : Canonical (.finite s m e hm)) (hn : m * 2 ^ (e + 1074).toNat / 2 ^ 1074 ≠ 0) :
    ∃ m' j, Normal (m * 2 ^ (e + 1074).toNat / 2 ^ 1074) m' j := by
  obtain ⟨hhi, hlo, helo, hehi⟩ := h
  rcases lt_or_ge e 0 with hneg | hnonneg
  · refine exists_normal_of_lt hn ?_
    rw [Nat.div_lt_iff_lt_mul (two_pow_pos _)]
    exact Nat.mul_lt_mul_of_lt_of_le hhi (Nat.pow_le_pow_right two_pos (by omega))
      (two_pow_pos _)
  · obtain ⟨k, rfl⟩ := Int.eq_ofNat_of_zero_le hnonneg
    have hdiv : m * 2 ^ ((k : Int) + 1074).toNat / 2 ^ 1074 = m * 2 ^ k := by
      rw [show ((k : Int) + 1074).toNat = k + 1074 by omega, pow_add, ← mul_assoc,
        Nat.mul_div_cancel _ (two_pow_pos _)]
    rw [hdiv]
    refine ⟨m, k + 52, hlo.resolve_right (by omega), hhi, ?_, by omega⟩
    rw [mul_assoc, ← pow_add]

end Exact

theorem tdiv_apply (s : Sign) (a b : Nat) :
    (s.apply (a : Int)).tdiv b = s.apply ((a / b : Nat) : Int) := by
  cases s with
  | negative => exact (Int.neg_tdiv a b).trans (congrArg Neg.neg (Int.ofNat_tdiv a b).symm)
  | positive => exact (Int.ofNat_tdiv a b).symm

/-- The integral part of a finite double is converted exactly. -/
theorem position_ofInt_tdiv (hx : x.isNaN = false) (hfinite : x.isInf = false) :
    (Float.ofInt ((position x).tdiv (2 ^ 1074))).isNaN = false ∧
      position (Float.ofInt ((position x).tdiv (2 ^ 1074))) =
        (position x).tdiv (2 ^ 1074) * 2 ^ 1074 := by
  have hcanonical := canonical_unpack x
  change x.toModel.unpack.isNaN = false at hx
  change x.toModel.unpack.isInf = false at hfinite
  rw [position]
  cases hunpack : x.toModel.unpack with
  | notANumber =>
    rw [hunpack] at hx
    cases hx
  | infinity s =>
    rw [hunpack] at hfinite
    cases hfinite
  | zero s =>
    rw [rank, Int.zero_tdiv, zero_mul]
    exact position_ofInt_zero
  | finite s m e hm =>
    rw [hunpack] at hcanonical
    have hdiv : (rank (.finite s m e hm)).tdiv (2 ^ 1074) =
        s.apply ((m * 2 ^ (e + 1074).toNat / 2 ^ 1074 : Nat) : Int) := by
      have h := tdiv_apply s (m * 2 ^ (e + 1074).toNat) (2 ^ 1074)
      rwa [Nat.cast_mul] at h
    have hnatAbs : ∀ n : Nat, (s.apply n).natAbs = n := by
      intro n
      cases s with
      | negative => exact (Int.natAbs_neg _).trans (Int.natAbs_natCast n)
      | positive => exact Int.natAbs_natCast n
    rw [hdiv]
    by_cases hzero : m * 2 ^ (e + 1074).toNat / 2 ^ 1074 = 0
    · have happly : s.apply ((0 : Nat) : Int) = 0 := by cases s <;> rfl
      rw [hzero, happly, zero_mul]
      exact position_ofInt_zero
    · obtain ⟨m', j, hnormal⟩ := exists_normal_of_canonical hm hcanonical hzero
      rw [← hnatAbs (_ / _)] at hnormal
      exact hnormal.position_ofInt

theorem lt_mul_of_tdiv_lt {p n b : Int} (hb : 0 < b) (h : p.tdiv b < n) : p < n * b := by
  rcases le_or_gt 0 p with hp | hp
  · rw [Int.tdiv_eq_ediv_of_nonneg hp] at h
    exact (Int.ediv_lt_iff_lt_mul hb).mp h
  · obtain ⟨q, rfl⟩ : ∃ q, p = -q := ⟨-p, (neg_neg p).symm⟩
    rw [Int.neg_tdiv, Int.tdiv_eq_ediv_of_nonneg (by omega)] at h
    have hle := Int.ediv_mul_le q hb.ne'
    have hlt := mul_lt_mul_of_pos_right h hb
    rw [neg_mul] at hlt
    omega

theorem mul_lt_of_lt_tdiv {p n b : Int} (hb : 0 < b) (h : n < p.tdiv b) : n * b < p := by
  have hneg : (-p).tdiv b < -n := by
    rw [Int.neg_tdiv]
    exact neg_lt_neg h
  have hlt := lt_mul_of_tdiv_lt hb hneg
  rw [neg_mul] at hlt
  exact neg_lt_neg_iff.mp hlt

/-- A finite double is compared with an integer by comparing first the integral part, and then the
double that the integer is converted to. -/
theorem compare_tdiv_then (hx : x.isNaN = false) (hfinite : x.isInf = false) (n : Int) :
    (compare ((position x).tdiv (2 ^ 1074)) n).then
      (compare (position x) (position (Float.ofInt n))) = compare (position x) (n * 2 ^ 1074) := by
  have hpos : (0 : Int) < 2 ^ 1074 := by positivity
  rcases lt_trichotomy ((position x).tdiv (2 ^ 1074)) n with hlt | rfl | hgt
  · rw [compare_lt_iff_lt.mpr hlt, compare_lt_iff_lt.mpr (lt_mul_of_tdiv_lt hpos hlt)]
    rfl
  · rw [compare_eq_iff_eq.mpr rfl, (position_ofInt_tdiv hx hfinite).2]
    rfl
  · rw [compare_gt_iff_gt.mpr hgt, compare_gt_iff_gt.mpr (mul_lt_of_lt_tdiv hpos hgt)]
    rfl

end Firebase.Lib.Binary64
