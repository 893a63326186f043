import Firebase.Lib.Binary64
import Firebase.Firestore.Model.FieldValue

/-!
# The order of field values

`FieldValue::CompareTo` is a total preorder, although it compares integers with doubles through a
truncation and a rounding, and maps through the `operator<` of their entries in both directions.

`FieldValue.code` writes a value as a list of tokens that has a delimiter wherever the value may
end, and comparing values is comparing their codes token by token (`compareTo_eq`).
-/

namespace Firebase.Firestore.Model

open Lib Util List FieldType
open Ordering (then_assoc then_eq_lt then_eq)
open Bool (and_eq_true not_eq_true)
open Binary64 (position position_of_isNaN units signed)

/-! ## Numbers -/

/-- Doubles are compared by their positions. -/
theorem compareDouble_eq (left right : Float) :
    compareDouble left right = compare (position left) (position right) := by
  unfold compareDouble
  cases hleft : left.isNaN with
  | false =>
    cases hright : right.isNaN with
    | false =>
      have hlt : left < right ↔ position left < position right :=
        Binary64.lt_iff.trans (and_iff_right ⟨hleft, hright⟩)
      have hgt : left > right ↔ position right < position left :=
        Binary64.lt_iff.trans (and_iff_right ⟨hright, hleft⟩)
      have heq : left == right ↔ position left = position right :=
        Binary64.beq_iff.trans (and_iff_right ⟨hleft, hright⟩)
      rcases lt_trichotomy (position left) (position right) with h | h | h
      · rw [if_pos (hlt.mpr h), compare_lt_iff_lt.mpr h]
      · rw [if_neg (mt hlt.mp h.not_lt), if_neg (mt hgt.mp h.not_gt), if_pos (heq.mpr h),
          compare_eq_iff_eq.mpr h]
      · rw [if_neg (mt hlt.mp h.not_gt), if_pos (hgt.mpr h), compare_gt_iff_gt.mpr h]
    | true =>
      have hlt : ¬left < right := fun h => nomatch hright.symm.trans (Binary64.lt_iff.mp h).1.2
      have hgt : ¬left > right := fun h => nomatch hright.symm.trans (Binary64.lt_iff.mp h).1.1
      have heq : ¬left == right := fun h => nomatch hright.symm.trans (Binary64.beq_iff.mp h).1.2
      rw [if_neg hlt, if_neg hgt, if_neg heq,
        compare_gt_iff_gt.mpr (Binary64.position_lt_position hright hleft)]
      rfl
  | true =>
    have hlt : ¬left < right := fun h => nomatch hleft.symm.trans (Binary64.lt_iff.mp h).1.1
    have hgt : ¬left > right := fun h => nomatch hleft.symm.trans (Binary64.lt_iff.mp h).1.2
    have heq : ¬left == right := fun h => nomatch hleft.symm.trans (Binary64.beq_iff.mp h).1.1
    rw [if_neg hlt, if_neg hgt, if_neg heq]
    cases hright : right.isNaN with
    | false =>
      rw [compare_lt_iff_lt.mpr (Binary64.position_lt_position hleft hright)]
      rfl
    | true =>
      rw [position_of_isNaN hleft, position_of_isNaN hright, compare_eq_iff_eq.mpr rfl]
      rfl

theorem truncate_eq {value : Float} (hvalue : value.isNaN = false) :
    truncate value = (position value).tdiv (2 ^ 1074) := by
  have hdiv : ((units value.toBits.toNat : Int)).tdiv (2 ^ 1074) =
      (units value.toBits.toNat / 2 ^ 1074 : Nat) := by
    rw [Int.ofNat_tdiv, Nat.cast_pow, Nat.cast_two]
  rw [Binary64.position_eq_bits hvalue, signed]
  show (if value.toBits.toNat / 2 ^ 63 = 1 then
    -((units value.toBits.toNat / 2 ^ 1074 : Nat) : Int)
      else (units value.toBits.toNat / 2 ^ 1074 : Nat)) = _
  split_ifs
  · rw [Int.neg_tdiv, hdiv]
  · rw [hdiv]

/-- The least integer is a double. -/
theorem position_minValue : (Float.ofInt Int64.minValue.toInt).isNaN = false ∧
    position (Float.ofInt Int64.minValue.toInt) = -2 ^ 63 * 2 ^ 1074 := by
  have hnormal : Binary64.Normal (Int64.minValue.toInt).natAbs (2 ^ 52) 63 :=
    ⟨le_rfl, by decide, by decide, by decide⟩
  exact hnormal.position_ofInt

/-- The greatest integer is rounded up. -/
theorem position_maxValue : (Float.ofInt Int64.maxValue.toInt).isNaN = false ∧
    position (Float.ofInt Int64.maxValue.toInt) = 2 ^ 63 * 2 ^ 1074 := by
  have hround : Float.ofInt Int64.maxValue.toInt = Float.ofInt (2 ^ 63) := by decide +kernel
  have hnormal : Binary64.Normal ((2 : Int) ^ 63).natAbs (2 ^ 52) 63 :=
    ⟨le_rfl, by decide, by decide, by decide⟩
  rw [hround]
  exact hnormal.position_ofInt

/-- The comparison of a double with an integer is exact. -/
theorem compareMixedNumber_eq (doubleValue : Float) (int64Value : Int64) :
    compareMixedNumber doubleValue int64Value =
      compare (position doubleValue) (int64Value.toInt * 2 ^ 1074) := by
  obtain ⟨hminNaN, hmin⟩ := position_minValue
  obtain ⟨hmaxNaN, hmax⟩ := position_maxValue
  have hpos : (0 : Int) < 2 ^ 1074 := by positivity
  have hlo : -2 ^ 63 * 2 ^ 1074 ≤ int64Value.toInt * 2 ^ 1074 :=
    mul_le_mul_of_nonneg_right int64Value.le_toInt hpos.le
  have hhi : int64Value.toInt * 2 ^ 1074 < 2 ^ 63 * 2 ^ 1074 :=
    mul_lt_mul_of_pos_right int64Value.toInt_lt hpos
  have hbound : (2 ^ 63 * 2 ^ 1074 : Int) < 2 ^ 2098 := by
    rw [← pow_add]
    exact pow_lt_pow_right₀ one_lt_two (by decide)
  unfold compareMixedNumber
  cases hnan : doubleValue.isNaN with
  | true =>
    have hlt : ¬doubleValue < Float.ofInt Int64.minValue.toInt :=
      fun h => nomatch hnan.symm.trans (Binary64.lt_iff.mp h).1.1
    have hge : ¬doubleValue ≥ Float.ofInt Int64.maxValue.toInt :=
      fun h => nomatch hnan.symm.trans (Binary64.le_iff.mp h).1.2
    have hfirst : position doubleValue < int64Value.toInt * 2 ^ 1074 := by
      rw [position_of_isNaN hnan, pow_succ]
      omega
    rw [if_neg hlt, if_neg hge, if_pos rfl, compare_lt_iff_lt.mpr hfirst]
  | false =>
    have hlt : doubleValue < Float.ofInt Int64.minValue.toInt ↔
        position doubleValue < -2 ^ 63 * 2 ^ 1074 := by
      rw [Binary64.lt_iff, hmin]
      exact and_iff_right ⟨hnan, hminNaN⟩
    have hge : doubleValue ≥ Float.ofInt Int64.maxValue.toInt ↔
        2 ^ 63 * 2 ^ 1074 ≤ position doubleValue := by
      rw [ge_iff_le, Binary64.le_iff, hmax]
      exact and_iff_right ⟨hmaxNaN, hnan⟩
    by_cases hsmall : position doubleValue < -2 ^ 63 * 2 ^ 1074
    · rw [if_pos (hlt.mpr hsmall), compare_lt_iff_lt.mpr (hsmall.trans_le hlo)]
    by_cases hlarge : 2 ^ 63 * 2 ^ 1074 ≤ position doubleValue
    · rw [if_neg (mt hlt.mp hsmall), if_pos (hge.mpr hlarge),
        compare_gt_iff_gt.mpr (hhi.trans_le hlarge)]
    · have hfinite : doubleValue.isInf = false := by
        rw [← not_eq_true]
        intro hinf
        have habs := congrArg (Nat.cast : Nat → Int) (Binary64.natAbs_position_of_isInf hinf)
        rw [Nat.cast_pow, Nat.cast_two] at habs
        omega
      rw [if_neg (mt hlt.mp hsmall), if_neg (mt hge.mp hlarge), if_neg (by decide),
        truncate_eq hnan, compareDouble_eq, Binary64.compare_tdiv_then hnan hfinite]

/-! ## Codes -/

/-- A part of a code: a number, a string, a time or a key. -/
structure Token where
  number : Int := 0
  bytes : Bytes := []
  time : Timestamp := SnapshotVersion.none.timestamp
  key : DocumentKey := .empty

namespace Token

def ofNumber (number : Int) : Token := { number }
def ofBytes (bytes : Bytes) : Token := { bytes }
def ofTime (time : Timestamp) : Token := { time }
def ofKey (key : DocumentKey) : Token := { key }

def cmp : Token → Token → Ordering :=
  compareLex (compareOn number) (compareLex (compareOn bytes)
    (compareLex (compareOn time) (compareOn key)))

instance : Std.TransCmp cmp :=
  inferInstanceAs (Std.TransCmp (compareLex (compareOn number) (compareLex (compareOn bytes)
    (compareLex (compareOn time) (compareOn key)))))

@[simp] theorem cmp_ofNumber (a b : Int) : cmp (ofNumber a) (ofNumber b) = compare a b := by
  simp [cmp, compareLex, compareOn, ofNumber]

@[simp] theorem cmp_ofBytes (a b : Bytes) : cmp (ofBytes a) (ofBytes b) = compare a b := by
  simp [cmp, compareLex, compareOn, ofBytes]

@[simp] theorem cmp_ofTime (a b : Timestamp) : cmp (ofTime a) (ofTime b) = compare a b := by
  simp [cmp, compareLex, compareOn, ofTime]

@[simp] theorem cmp_ofKey (a b : DocumentKey) : cmp (ofKey a) (ofKey b) = compare a b := by
  simp [cmp, compareLex, compareOn, ofKey]

end Token

/-- The place of a type among the types, with both types of numbers in one place. -/
def FieldType.rank : FieldType → Nat
  | double => integer.ctorIdx
  | type => type.ctorIdx

namespace FieldValue

mutual

/-- The code of a value: what the order depends on, with a delimiter at the end of arrays and maps.
-/
def code : FieldValue → List Token
  | null => [.ofNumber (rank .null)]
  | boolean value => [.ofNumber (rank .boolean), .ofNumber value.toInt]
  | integer value => [.ofNumber (rank .integer), .ofNumber (value.toInt * 2 ^ 1074)]
  | double value => [.ofNumber (rank .double), .ofNumber (position value)]
  | timestamp value => [.ofNumber (rank .timestamp), .ofTime value]
  | serverTimestamp localWriteTime _ =>
    [.ofNumber (rank .serverTimestamp), .ofTime localWriteTime]
  | string value => [.ofNumber (rank .string), .ofBytes value]
  | blob value => [.ofNumber (rank .blob), .ofBytes value]
  | reference databaseId key =>
    [.ofNumber (rank .reference), .ofBytes databaseId.projectId,
      .ofBytes databaseId.databaseId, .ofKey key]
  | geoPoint value =>
    [.ofNumber (rank .geoPoint), .ofNumber (position value.latitude),
      .ofNumber (position value.longitude)]
  | array value => .ofNumber (rank .array) :: codeArray value
  | object value => .ofNumber (rank .object) :: codeMap value

def codeArray : List FieldValue → List Token
  | [] => [.ofNumber 0]
  | value :: values => .ofNumber 1 :: (code value ++ codeArray values)

def codeMap : List (Bytes × FieldValue) → List Token
  | [] => [.ofNumber 0]
  | (name, value) :: entries => .ofNumber 1 :: .ofBytes name :: (code value ++ codeMap entries)

end

def compareCode : List Token → List Token → Ordering := List.compareLex Token.cmp

instance : Std.TransCmp compareCode := inferInstanceAs (Std.TransCmp (List.compareLex Token.cmp))

@[simp] theorem compareCode_cons_cons (a b : Token) (s t : List Token) :
    compareCode (a :: s) (b :: t) = (Token.cmp a b).then (compareCode s t) :=
  List.compareLex_cons_cons

@[simp] theorem compareCode_nil : compareCode [] [] = .eq := List.compareLex_nil_nil

theorem exists_code (value : FieldValue) :
    ∃ rest, value.code = .ofNumber value.type.rank :: rest := by
  cases value <;> exact ⟨_, by rw [code]; rfl⟩

theorem compareTypes_eq {lhs rhs : FieldType} (h : lhs.rank ≠ rhs.rank) :
    compareTypes lhs rhs = compare (lhs.rank : Int) rhs.rank := by
  revert h
  cases lhs <;> cases rhs <;> decide

theorem compare_bytes_eq_lt {a b : Bytes} : compare a b = .lt ↔ a < b := by
  induction a generalizing b with
  | nil => cases b <;> simp
  | cons x a ih =>
    cases b with
    | nil => simp
    | cons y b =>
      rw [List.compare_cons_cons, cons_lt_cons_iff, ← ih, then_eq_lt,
        Std.compare_eq_lt, Std.LawfulEqOrd.compare_eq_iff_eq]

theorem GeoPoint.lt_iff (a b : GeoPoint) : GeoPoint.lt a b ↔
    position a.latitude < position b.latitude ∨
      position a.latitude = position b.latitude ∧
        position a.longitude < position b.longitude := by
  have hlatitude := And.intro a.valid.1.1 b.valid.1.1
  have hlongitude := And.intro a.valid.2.1 b.valid.2.1
  have heq : a.latitude == b.latitude ↔ _ := Binary64.beq_iff.trans (and_iff_right hlatitude)
  unfold GeoPoint.lt
  split_ifs with hsame
  · have hsame := heq.mp hsame
    rw [decide_eq_true_iff, Binary64.lt_iff.trans (and_iff_right hlongitude)]
    exact ⟨fun h => .inr ⟨hsame, h⟩, fun h => (h.resolve_left hsame.not_lt).2⟩
  · have hsame := mt heq.mpr hsame
    rw [decide_eq_true_iff, Binary64.lt_iff.trans (and_iff_right hlatitude)]
    exact ⟨.inl, fun h => h.resolve_right fun h => hsame h.1⟩

theorem defaultCompare_geoPoint (a b : GeoPoint) : defaultCompare GeoPoint.lt a b =
    (compare (position a.latitude) (position b.latitude)).then
      (compare (position a.longitude) (position b.longitude)) := by
  unfold defaultCompare
  split_ifs with hlt hgt
  · rw [GeoPoint.lt_iff] at hlt
    rw [eq_comm, then_eq_lt, compare_lt_iff_lt, compare_lt_iff_lt, compare_eq_iff_eq]
    exact hlt
  · rw [GeoPoint.lt_iff] at hgt
    rw [eq_comm, Ordering.then_eq_gt, compare_gt_iff_gt, compare_gt_iff_gt, compare_eq_iff_eq]
    exact hgt.imp_right (And.imp_left Eq.symm)
  · rw [GeoPoint.lt_iff, not_or, not_and] at hlt hgt
    have hlatitude := le_antisymm (not_lt.mp hgt.1) (not_lt.mp hlt.1)
    have hlongitude := le_antisymm (not_lt.mp (hgt.2 hlatitude.symm)) (not_lt.mp (hlt.2 hlatitude))
    rw [compare_eq_iff_eq.mpr hlatitude, compare_eq_iff_eq.mpr hlongitude]
    rfl

/-- Entries are compared by name and then by value. -/
theorem compareMaps_cons (name name' : Bytes) (a b : FieldValue)
    (lhs rhs : List (Bytes × FieldValue)) (hswap : compareTo b a = (compareTo a b).swap) :
    compareMaps ((name, a) :: lhs) ((name', b) :: rhs) =
      (compare name name').then ((compareTo a b).then (compareMaps lhs rhs)) := by
  rw [compareMaps, hswap]
  rcases lt_trichotomy name name' with hlt | rfl | hgt
  · rw [if_pos (.inl hlt), compare_bytes_eq_lt.mpr hlt]
    rfl
  · have hself : compare name name = .eq := Std.ReflOrd.compare_self
    rw [hself]
    cases compareTo a b <;> simp
  · have hcompare : compare name name' = .gt := Std.OrientedCmp.gt_iff_lt.mpr
      (compare_bytes_eq_lt.mpr hgt)
    rw [if_neg (by simp [hgt, hgt.not_gt]), if_pos (.inl hgt), hcompare]
    rfl

theorem compare_int64 (a b : Int64) :
    compare a b = compare (a.toInt * 2 ^ 1074) (b.toInt * 2 ^ 1074) := by
  have hcompare : compare a b = compare a.toInt b.toInt := by
    rcases lt_trichotomy a.toInt b.toInt with h | h | h
    · rw [compare_lt_iff_lt.mpr h, compare_lt_iff_lt.mpr (Int64.lt_iff_toInt_lt.mpr h)]
    · rw [compare_eq_iff_eq.mpr h, compare_eq_iff_eq.mpr (Int64.toInt.inj h)]
    · rw [compare_gt_iff_gt.mpr h, compare_gt_iff_gt.mpr (Int64.lt_iff_toInt_lt.mpr h)]
  rw [hcompare, Binary64.compare_mul_right (by positivity)]

mutual

/-- Comparing values is comparing their codes, whatever follows them. -/
theorem compareCode_code_append (a b : FieldValue) (s t : List Token) :
    compareCode (a.code ++ s) (b.code ++ t) = (compareTo a b).then (compareCode s t) := by
  unfold compareTo
  split
  case h_1 => simp [code]
  case h_2 a b => cases a <;> cases b <;> simp [code] <;> rfl
  case h_3 a b => simp [code, compare_int64]
  case h_4 a b => simp [code, compareDouble_eq]
  case h_5 a b =>
    simp [code, compareMixedNumber_eq, ← Std.OrientedOrd.eq_swap, rank]
  case h_6 a b => simp [code, compareMixedNumber_eq, rank]
  case h_7 | h_9 | h_11 | h_12 => simp [code]
  case h_8 | h_10 => simp [code, rank]; rfl
  case h_13 => simp [code, DatabaseId.compareTo, then_assoc]
  case h_14 a b => simp [code, defaultCompare_geoPoint, then_assoc]
  case h_15 a b => simp [code, compareCode_codeArray_append a b]
  case h_16 a b => simp [code, compareCode_codeMap_append a b]
  case h_17 =>
    -- No two values of the same rank are left.
    have hrank : a.type.rank ≠ b.type.rank := by
      intro hrank
      cases a <;> cases b <;> first | exact absurd hrank (of_decide_eq_false rfl) | grind
    have hne : compare (a.type.rank : Int) b.type.rank ≠ .eq := by
      rw [Ne, compare_eq_iff_eq, Nat.cast_inj]
      exact hrank
    obtain ⟨s', hs⟩ := exists_code a
    obtain ⟨t', ht⟩ := exists_code b
    rw [hs, ht, cons_append, cons_append, compareCode_cons_cons, Token.cmp_ofNumber,
      compareTypes_eq hrank]
    generalize compare (a.type.rank : Int) b.type.rank = o at hne
    cases o with
    | eq => exact absurd rfl hne
    | lt | gt => rfl
termination_by sizeOf a + sizeOf b

theorem compareCode_codeArray_append (lhs rhs : List FieldValue) (s t : List Token) :
    compareCode (codeArray lhs ++ s) (codeArray rhs ++ t) =
      (compareArrays lhs rhs).then (compareCode s t) := by
  unfold compareArrays
  split
  case h_1 => simp [codeArray]
  case h_2 | h_3 =>
    simp [codeArray]
    rfl
  case h_4 a lhs b rhs =>
    simp [codeArray, compareCode_code_append a b, compareCode_codeArray_append lhs rhs,
      then_assoc]
termination_by sizeOf lhs + sizeOf rhs

theorem compareCode_codeMap_append (lhs rhs : List (Bytes × FieldValue)) (s t : List Token) :
    compareCode (codeMap lhs ++ s) (codeMap rhs ++ t) =
      (compareMaps lhs rhs).then (compareCode s t) := by
  match lhs, rhs with
  | [], [] => simp [codeMap, compareMaps]
  | [], _ :: _ | _ :: _, [] =>
    simp [codeMap, compareMaps]
    rfl
  | (name, a) :: lhs, (name', b) :: rhs =>
    have hswap : compareTo b a = (compareTo a b).swap := by
      have hab := compareCode_code_append a b [] []
      have hba := compareCode_code_append b a [] []
      rw [compareCode_nil, then_eq, append_nil, append_nil] at hab hba
      rw [← hab, ← hba]
      exact Std.OrientedCmp.eq_swap
    rw [compareMaps_cons _ _ _ _ _ _ hswap]
    simp [codeMap, compareCode_code_append a b, compareCode_codeMap_append lhs rhs,
      then_assoc]
termination_by sizeOf lhs + sizeOf rhs

end

/-- `CompareTo` compares codes. -/
theorem compareTo_eq (a b : FieldValue) : compareTo a b = compareCode a.code b.code := by
  have h := compareCode_code_append a b [] []
  rw [compareCode_nil, then_eq, append_nil, append_nil] at h
  exact h.symm

/-- `CompareTo` is a total preorder. -/
instance : Std.TransCmp compareTo where
  eq_swap {a b} := by
    rw [compareTo_eq, compareTo_eq]
    exact Std.OrientedCmp.eq_swap
  isLE_trans {a b c} := by
    rw [compareTo_eq, compareTo_eq, compareTo_eq]
    exact Std.TransCmp.isLE_trans

/-- `CompareTo` is reflexive, turns around with its arguments and is transitive, on values of all
types and of any nesting. -/
theorem compareTo_totalPreorder : (∀ a, compareTo a a = .eq) ∧
    (∀ a b, compareTo a b = (compareTo b a).swap) ∧
    ∀ a b c, (compareTo a b).isLE → (compareTo b c).isLE → (compareTo a c).isLE := by
  refine ⟨fun a => ?_, fun a b => ?_, fun a b c hab hbc => ?_⟩
  · exact Std.ReflCmp.compare_self
  · exact Std.OrientedCmp.eq_swap
  · exact Std.TransCmp.isLE_trans hab hbc

/-! ## Equality -/

theorem equals_geoPoint_iff {a b : GeoPoint} : (!(GeoPoint.lt a b || GeoPoint.lt b a)) = true ↔
      position a.latitude = position b.latitude ∧
        position a.longitude = position b.longitude := by
  rw [Bool.not_eq_true', Bool.or_eq_false_iff, ← not_eq_true, ← not_eq_true,
    GeoPoint.lt_iff, GeoPoint.lt_iff]
  constructor
  · rintro ⟨hlt, hgt⟩
    rw [not_or, not_and] at hlt hgt
    have hlatitude := le_antisymm (not_lt.mp hgt.1) (not_lt.mp hlt.1)
    exact ⟨hlatitude, le_antisymm (not_lt.mp (hgt.2 hlatitude.symm)) (not_lt.mp (hlt.2 hlatitude))⟩
  · rintro ⟨hlatitude, hlongitude⟩
    rw [hlatitude, hlongitude]
    simp

theorem doubleBitwiseEquals_iff {a b : Float} :
    doubleBitwiseEquals a b ↔ a.isNaN ∧ b.isNaN ∨ a = b := by
  rw [doubleBitwiseEquals, Bool.or_eq_true, and_eq_true, beq_iff_eq]
  refine or_congr_right ⟨fun hbits => ?_, congrArg _⟩
  obtain ⟨⟨_, _⟩⟩ := a
  obtain ⟨⟨_, _⟩⟩ := b
  cases hbits
  rfl

theorem position_eq_of_bitwise {a b : Float} (h : doubleBitwiseEquals a b) :
    position a = position b := by
  rcases doubleBitwiseEquals_iff.mp h with ⟨ha, hb⟩ | rfl
  · rw [position_of_isNaN ha, position_of_isNaN hb]
  · rfl

mutual

/-- Values that are equal have the same code. -/
theorem code_eq_of_equals {a b : FieldValue} (h : equals a b) : a.code = b.code := by
  unfold equals at h
  split at h
  case h_1 => rfl
  case h_4 => rw [code, code, position_eq_of_bitwise h]
  case h_9 =>
    rw [and_eq_true, beq_iff_eq, beq_iff_eq] at h
    rw [h.1, h.2]
  case h_10 => rw [code, code, (equals_geoPoint_iff.mp h).1, (equals_geoPoint_iff.mp h).2]
  case h_11 a b => rw [code, code, codeArray_eq_of_equals h]
  case h_12 a b => rw [code, code, codeMap_eq_of_equals h]
  case h_13 => cases h
  all_goals
    rw [beq_iff_eq] at h
    rw [code, code, h]

theorem codeArray_eq_of_equals {a b : List FieldValue} (h : equalArrays a b) :
    codeArray a = codeArray b := by
  unfold equalArrays at h
  split at h
  case h_1 => rfl
  case h_2 a lhs b rhs =>
    rw [and_eq_true] at h
    rw [codeArray, codeArray, code_eq_of_equals h.1, codeArray_eq_of_equals h.2]
  case h_3 => cases h

theorem codeMap_eq_of_equals {a b : List (Bytes × FieldValue)} (h : equalMaps a b) :
    codeMap a = codeMap b := by
  unfold equalMaps at h
  split at h
  case h_1 => rfl
  case h_2 name a lhs name' b rhs =>
    rw [and_eq_true, and_eq_true, beq_iff_eq] at h
    rw [codeMap, codeMap, h.1.1, code_eq_of_equals h.1.2, codeMap_eq_of_equals h.2]
  case h_3 => cases h

end

theorem doubleBitwiseEquals_trans {a b c : Float} (hab : doubleBitwiseEquals a b)
    (hbc : doubleBitwiseEquals b c) : doubleBitwiseEquals a c := by
  rw [doubleBitwiseEquals_iff] at *
  rcases hab with ⟨ha, hb⟩ | rfl
  · rcases hbc with ⟨-, hc⟩ | rfl
    · exact .inl ⟨ha, hc⟩
    · exact .inl ⟨ha, hb⟩
  · exact hbc

mutual

theorem equals_refl : ∀ a : FieldValue, equals a a
  | null => rfl
  | boolean _ | integer _ | timestamp _ | serverTimestamp _ _ | string _ | blob _ => by
    simp [equals]
  | double _ => doubleBitwiseEquals_iff.mpr (.inr rfl)
  | reference _ _ => by simp [equals]
  | geoPoint _ => equals_geoPoint_iff.mpr ⟨rfl, rfl⟩
  | array values => equalArrays_refl values
  | object entries => equalMaps_refl entries

theorem equalArrays_refl : ∀ a : List FieldValue, equalArrays a a
  | [] => rfl
  | value :: values => by
    rw [equalArrays, and_eq_true]
    exact ⟨equals_refl value, equalArrays_refl values⟩

theorem equalMaps_refl : ∀ a : List (Bytes × FieldValue), equalMaps a a
  | [] => rfl
  | (name, value) :: entries => by
    rw [equalMaps, and_eq_true, and_eq_true, beq_iff_eq]
    exact ⟨⟨rfl, equals_refl value⟩, equalMaps_refl entries⟩

end

mutual

theorem equals_trans {a b c : FieldValue} (hab : equals a b) (hbc : equals b c) : equals a c := by
  unfold equals at hab
  split at hab
  case h_1 => exact hbc
  case h_4 =>
    cases c with
    | double c => exact doubleBitwiseEquals_trans hab hbc
    | _ => exact Bool.noConfusion hbc
  case h_6 =>
    cases c with
    | serverTimestamp c =>
      rw [beq_iff_eq] at hab
      rwa [equals, hab]
    | _ => exact Bool.noConfusion hbc
  case h_9 =>
    rw [and_eq_true, beq_iff_eq, beq_iff_eq] at hab
    rwa [hab.1, hab.2]
  case h_10 =>
    cases c with
    | geoPoint c =>
      have hpoint := equals_geoPoint_iff.mp hab
      have hpoint' := equals_geoPoint_iff.mp hbc
      exact equals_geoPoint_iff.mpr ⟨hpoint.1.trans hpoint'.1, hpoint.2.trans hpoint'.2⟩
    | _ => exact Bool.noConfusion hbc
  case h_11 a b =>
    cases c with
    | array c => exact equalArrays_trans (a := a) (b := b) hab hbc
    | _ => exact Bool.noConfusion hbc
  case h_12 a b =>
    cases c with
    | object c => exact equalMaps_trans (a := a) (b := b) hab hbc
    | _ => exact Bool.noConfusion hbc
  case h_13 => cases hab
  all_goals
    rw [beq_iff_eq] at hab
    rwa [hab]

theorem equalArrays_trans {a b c : List FieldValue} (hab : equalArrays a b)
    (hbc : equalArrays b c) : equalArrays a c := by
  match a, b, c with
  | [], [], c => exact hbc
  | a :: as, b :: bs, c :: cs =>
    rw [equalArrays, and_eq_true] at *
    exact ⟨equals_trans hab.1 hbc.1, equalArrays_trans hab.2 hbc.2⟩

theorem equalMaps_trans {a b c : List (Bytes × FieldValue)} (hab : equalMaps a b)
    (hbc : equalMaps b c) : equalMaps a c := by
  match a, b, c with
  | [], [], c => exact hbc
  | (name, a) :: as, (name', b) :: bs, (name'', c) :: cs =>
    rw [equalMaps, and_eq_true, and_eq_true, beq_iff_eq] at *
    exact ⟨⟨hab.1.1.trans hbc.1.1, equals_trans hab.1.2 hbc.1.2⟩, equalMaps_trans hab.2 hbc.2⟩

end

mutual

theorem equals_symm {a b : FieldValue} (hab : equals a b) : equals b a := by
  unfold equals at hab
  split at hab
  case h_1 => rfl
  case h_4 a b =>
    rw [equals, doubleBitwiseEquals_iff]
    exact (doubleBitwiseEquals_iff.mp hab).imp And.symm Eq.symm
  case h_9 =>
    rw [and_eq_true, beq_iff_eq, beq_iff_eq] at hab
    rw [equals, and_eq_true, beq_iff_eq, beq_iff_eq]
    exact ⟨hab.1.symm, hab.2.symm⟩
  case h_10 =>
    have hpoint := equals_geoPoint_iff.mp hab
    exact equals_geoPoint_iff.mpr ⟨hpoint.1.symm, hpoint.2.symm⟩
  case h_11 a b => exact equalArrays_symm (a := a) (b := b) hab
  case h_12 a b => exact equalMaps_symm (a := a) (b := b) hab
  case h_13 => cases hab
  all_goals
    rw [beq_iff_eq] at hab
    rw [equals, beq_iff_eq, hab]

theorem equalArrays_symm {a b : List FieldValue} (hab : equalArrays a b) : equalArrays b a := by
  match a, b with
  | [], [] => rfl
  | a :: as, b :: bs =>
    rw [equalArrays, and_eq_true] at *
    exact ⟨equals_symm hab.1, equalArrays_symm hab.2⟩

theorem equalMaps_symm {a b : List (Bytes × FieldValue)} (hab : equalMaps a b) : equalMaps b a := by
  match a, b with
  | [], [] => rfl
  | (name, a) :: as, (name', b) :: bs =>
    rw [equalMaps, and_eq_true, and_eq_true, beq_iff_eq] at *
    exact ⟨⟨hab.1.1.symm, equals_symm hab.1.2⟩, equalMaps_symm hab.2⟩

end

/-- `operator==` is an equivalence, of values with NaN in them as well, and `CompareTo` does not
tell equal values apart. -/
theorem equals_congruence : (∀ a, equals a a) ∧ (∀ a b, equals a b → equals b a) ∧
    (∀ a b c, equals a b → equals b c → equals a c) ∧
    ∀ a b c, equals a b → compareTo a c = compareTo b c ∧ compareTo c a = compareTo c b := by
  refine ⟨equals_refl, fun _ _ => equals_symm, fun _ _ _ => equals_trans, fun a b c hab => ?_⟩
  simp only [compareTo_eq, code_eq_of_equals hab, and_self]

end FieldValue

/-! ## Fields of equal objects -/

variable {lhs rhs : ObjectValue}

namespace ObjectValue

def equals (lhs rhs : ObjectValue) : Bool := FieldValue.equalMaps lhs rhs

theorem find_cons (name name' : Bytes) (value : FieldValue) (object : ObjectValue) :
    find ((name', value) :: object) name = if name' = name then some value else object.find
      name := by
  rw [find, find?_cons]
  by_cases hname : name' = name
  · rw [if_pos hname, show (name' == name) = true from beq_iff_eq.mpr hname]
    rfl
  · rw [if_neg hname, show (name' == name) = false from beq_eq_false_iff_ne.mpr hname]
    rfl

theorem find_of_equals (h : lhs.equals rhs) (name : Bytes) :
    Option.Rel (fun a b => FieldValue.equals a b) (lhs.find name) (rhs.find name) := by
  induction lhs generalizing rhs with
  | nil =>
    cases rhs with
    | nil => exact .none
    | cons => exact Bool.noConfusion h
  | cons entry lhs ih =>
    cases rhs with
    | nil => exact Bool.noConfusion h
    | cons entry' rhs =>
      obtain ⟨name', value⟩ := entry
      obtain ⟨name'', value'⟩ := entry'
      rw [equals, FieldValue.equalMaps, and_eq_true, and_eq_true, beq_iff_eq] at h
      obtain ⟨⟨rfl, hvalue⟩, hrest⟩ := h
      rw [find_cons, find_cons]
      split_ifs
      · exact .some hvalue
      · exact ih hrest

theorem getFrom_of_equals {path : FieldPath} {a b : FieldValue} (h : FieldValue.equals a b) :
    Option.Rel (fun a b => FieldValue.equals a b) (getFrom a path) (getFrom b path) := by
  induction path generalizing a b with
  | nil =>
    rw [getFrom, getFrom]
    exact .some h
  | cons name path ih =>
    unfold FieldValue.equals at h
    split at h
    case h_12 lhs rhs =>
      have hfind := find_of_equals (show ObjectValue.equals lhs rhs from h) name
      rw [getFrom, getFrom]
      generalize find lhs name = x at hfind
      generalize find rhs name = y at hfind
      cases hfind with
      | some hvalue => exact ih hvalue
      | none => exact .none
    case h_13 => cases h
    all_goals exact .none

/-- Equal objects have equal fields. -/
theorem get_of_equals (h : lhs.equals rhs) (path : FieldPath) :
    Option.Rel (fun a b => FieldValue.equals a b) (lhs.get path) (rhs.get path) :=
  getFrom_of_equals (a := .object lhs) (b := .object rhs) h

end ObjectValue

end Firebase.Firestore.Model
