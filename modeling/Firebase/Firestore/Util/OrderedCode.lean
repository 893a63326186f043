import Firebase.Lib.BigEndian

/-!
# `util::OrderedCode`: strings

The order-preserving encodings that the keys of the local store are made of
(`ordered_code.cc`).  This module has the strings; `OrderedCodeNum` the numbers.

A string is written byte by byte, with `0x00` and `0xff` escaped to two bytes, and closed by the
separator `0x00 0x01`, which no escaped byte starts like.
-/

namespace Firebase.Firestore.Util

open Lib

/-- The contents of a `std::string` or an `absl::string_view`. -/
abbrev Bytes := List UInt8

instance Bytes.isTrans_le : IsTrans Bytes (· ≤ ·) := inferInstance

instance Bytes.antisymm_le : Std.Antisymm fun a b : Bytes => a ≤ b := inferInstance

instance Bytes.total_le : Std.Total fun a b : Bytes => a ≤ b := inferInstance

def ascii (literal : String) : Bytes := literal.toList.map fun c => UInt8.ofNat c.toNat

namespace OrderedCode

def kEscape1 : UInt8 := 0x00
def kNullCharacter : UInt8 := 0xff
def kSeparator : UInt8 := 0x01
def kEscape2 : UInt8 := 0xff
def kFFCharacter : UInt8 := 0x00

/-- `EncodeStringFragment`, byte by byte.  In the source `SkipToNextSpecialByte` finds the next
special byte, eight bytes at a time, and the ordinary ones in front of it are copied at once. -/
def encodeStringFragment : Bytes → Bytes
  | [] => []
  | c :: s =>
    if c = kEscape1 then kEscape1 :: kNullCharacter :: encodeStringFragment s
    else if c = kEscape2 then kEscape2 :: kFFCharacter :: encodeStringFragment s
    else c :: encodeStringFragment s

def writeString (s : Bytes) : Bytes := encodeStringFragment s ++ [kEscape1, kSeparator]

/-- `OrderedCode::ReadString`: the string and what follows its encoding, or `none` if the input does
not start with an encoding.  A single remaining byte is an error. -/
def readString : Bytes → Option (Bytes × Bytes)
  | [] => none
  | [_] => none
  | c :: next :: src =>
    if c = kEscape1 then
      if next = kSeparator then some ([], src)
      else if next = kNullCharacter then (readString src).map fun (s, rest) => (0x00 :: s, rest)
      else none
    else if c = kEscape2 then
      if next = kFFCharacter then (readString src).map fun (s, rest) => (0xff :: s, rest)
      else none
    else (readString (next :: src)).map fun (s, rest) => (c :: s, rest)

/-- Strings compare as their encodings: an ordinary byte keeps its place between
the escape sequences of `0x00` and of `0xff`, and the separator sorts before
them all. -/
theorem writeString_orderCode : OrderCode writeString := by
  intro a
  induction a with
  | nil =>
    intro b hab
    cases b with
    | nil => exact absurd hab (lt_irrefl _)
    | cons d b =>
      by_cases h1 : d = kEscape1
      · subst h1
        exact .tail (.head (by decide))
      · have hd : kEscape1 < d := by
          exact Nat.pos_of_ne_zero fun h => h1 (UInt8.toNat_inj.mp h)
        by_cases h2 : d = kEscape2
        · simp only [writeString, encodeStringFragment, if_neg h1, if_pos h2]
          exact .head (by decide)
        · simp only [writeString, encodeStringFragment, if_neg h1, if_neg h2]
          exact .head hd
  | cons c a ih =>
    intro b hab
    cases b with
    | nil => exact absurd hab (not_lt_of_gt (List.nil_lt_cons c a))
    | cons d b =>
      rcases List.cons_lt_cons_iff.mp hab with hlt | ⟨rfl, hlt⟩
      · -- The first differing byte: at most one of the two needs the same escape byte.
        have hd1 : d ≠ kEscape1 := by
          rintro rfl
          exact absurd (UInt8.lt_iff_toNat_lt.mp hlt) (Nat.not_lt_zero _)
        have hc2 : c ≠ kEscape2 := by
          rintro rfl
          have hd := UInt8.lt_iff_toNat_lt.mp hlt
          have hd' := d.toNat_lt
          simp [kEscape2] at hd
          omega
        by_cases h1 : c = kEscape1
        · by_cases h2 : d = kEscape2
          · simp only [writeString, encodeStringFragment, if_pos h1, if_neg hd1, if_pos h2]
            exact .head (by decide)
          · simp only [writeString, encodeStringFragment, if_pos h1, if_neg hd1, if_neg h2]
            exact .head (h1 ▸ hlt)
        · by_cases h2 : d = kEscape2
          · simp only [writeString, encodeStringFragment, if_neg h1, if_neg hc2, if_neg hd1,
              if_pos h2]
            exact .head (h2 ▸ hlt)
          · simp only [writeString, encodeStringFragment, if_neg h1, if_neg hc2, if_neg hd1,
              if_neg h2]
            exact .head hlt
      · have hrest := ih b hlt
        by_cases h1 : c = kEscape1
        · simp only [writeString, encodeStringFragment, if_pos h1]
          exact .tail (.tail hrest)
        · by_cases h2 : c = kEscape2
          · simp only [writeString, encodeStringFragment, if_neg h1, if_pos h2]
            exact .tail (.tail hrest)
          · simp only [writeString, encodeStringFragment, if_neg h1, if_neg h2]
            exact .tail hrest

/-- Reading back what was written returns the string and leaves exactly what follows. -/
theorem readString_writeString (s rest : Bytes) :
    readString (writeString s ++ rest) = some (s, rest) := by
  induction s with
  | nil => rfl
  | cons c s ih =>
    by_cases h1 : c = kEscape1
    · subst h1
      change readString (kEscape1 :: kNullCharacter :: (writeString s ++ rest)) = _
      simp only [readString, ih]
      rfl
    · by_cases h2 : c = kEscape2
      · subst h2
        change readString (kEscape2 :: kFFCharacter :: (writeString s ++ rest)) = _
        simp only [readString, ih]
        rfl
      · -- An ordinary byte is never the last one, since the separator follows.
        have he : writeString (c :: s) ++ rest = c :: (writeString s ++ rest) := by
          simp [writeString, encodeStringFragment, h1, h2]
        obtain ⟨d, t, hd⟩ : ∃ d t, writeString s ++ rest = d :: t :=
          List.exists_cons_of_ne_nil (by simp [writeString])
        rw [he, hd, readString, if_neg h1, if_neg h2, ← hd, ih]
        rfl

/-- What can be read starts with the encoding of the string that is read. -/
theorem eq_of_readString {src s rest : Bytes} (h : readString src = some (s, rest)) :
    src = writeString s ++ rest := by
  -- The escape sequences are met with the cases of the reader; only the separator ends it.
  induction src using readString.induct generalizing s with
  | case1 | case2 => cases h
  | case3 src =>
    cases h
    rfl
  | case4 src _ ih =>
    obtain ⟨⟨s', rest'⟩, hread, heq⟩ := Option.map_eq_some_iff.mp h
    cases heq
    rw [ih hread]
    rfl
  | case5 next src hseparator hnull =>
    rw [readString, if_neg hseparator, if_neg hnull] at h
    cases h
  | case6 src _ ih =>
    obtain ⟨⟨s', rest'⟩, hread, heq⟩ := Option.map_eq_some_iff.mp h
    cases heq
    rw [ih hread]
    rfl
  | case7 next src hff =>
    rw [readString, if_neg hff] at h
    cases h
  | case8 c next src h1 h2 ih =>
    rw [readString, if_neg h1, if_neg h2] at h
    obtain ⟨⟨s', rest'⟩, hread, heq⟩ := Option.map_eq_some_iff.mp h
    cases heq
    rw [ih hread, writeString, writeString, encodeStringFragment, if_neg h1, if_neg h2]
    rfl

/-- Encodings compare as the strings do and none is a prefix of another one; a string is read back
in front of anything, and nothing but encodings is read. -/
theorem orderedCode_strings : (∀ a b, writeString a < writeString b ↔ a < b) ∧
    (∀ a b, writeString a <+: writeString b → a = b) ∧
    (∀ s rest, readString (writeString s ++ rest) = some (s, rest)) ∧
    ∀ src s rest, readString src = some (s, rest) → src = writeString s ++ rest := by
  refine ⟨fun a b => writeString_orderCode.lt_iff, fun a b h => ?_, readString_writeString,
    fun src s rest => eq_of_readString⟩
  rw [← List.append_nil (writeString b)] at h
  exact writeString_orderCode.prefix_append_iff.mp h

end OrderedCode

end Firebase.Firestore.Util
