import Firebase.Firestore.Model.FieldValue

/-!
# The text of a field path

`FieldPath::CanonicalString` and `FieldPath::FromServerFormat` (`field_path.cc`).  In the
messages of the parser `%s` stands for the text.
-/

namespace Firebase.Firestore.Model.FieldPath

open Util List

def kDot : UInt8 := 0x2e
def kBackslash : UInt8 := 0x5c
def kBacktick : UInt8 := 0x60

def isLetter (c : UInt8) : Bool :=
  c == 0x5f || (0x61 ≤ c && c ≤ 0x7a) || (0x41 ≤ c && c ≤ 0x5a)

def isValidIdentifier : Bytes → Bool
  | [] => false
  | first :: rest => isLetter first && rest.all fun c => isLetter c || (0x30 ≤ c && c ≤ 0x39)

/-- What `StrReplaceAll` puts in the place of a byte. -/
def escapedByte (c : UInt8) : Bytes :=
  if c = kBackslash ∨ c = kBacktick then [kBackslash, c] else [c]

def escapedSegment (segment : Bytes) : Bytes :=
  let escaped := segment.flatMap escapedByte
  if isValidIdentifier escaped then escaped else kBacktick :: (escaped ++ [kBacktick])

def canonicalString (path : FieldPath) : Bytes := [kDot].intercalate (path.map escapedSegment)

def finishSegment (segments : FieldPath) (segment : Bytes) : Hard FieldPath := do
  hardAssert (segment ≠ []) ("Invalid field path (%s). Paths must not be empty, begin with '.', " ++
    "end with '.', or contain '..'")
  return segments ++ [segment]

def finish (segments : FieldPath) (segment : Bytes) (insideBackticks : Bool) : Hard FieldPath := do
  let segments ← finishSegment segments segment
  hardAssert (!insideBackticks) "Unterminated ` in path %s"
  return segments

/-- The loop of the parser, on the rest of the text.  The first null byte ends it. -/
def parse (segments : FieldPath) (segment : Bytes) (insideBackticks : Bool) : Bytes → Hard FieldPath
  | [] => finish segments segment insideBackticks
  | c :: rest =>
    if c = 0 then finish segments segment insideBackticks
    else if c = kDot then
      if insideBackticks then parse segments (segment ++ [c]) insideBackticks rest
      else do
        let segments ← finishSegment segments segment
        parse segments [] insideBackticks rest
    else if c = kBacktick then parse segments segment (!insideBackticks) rest
    else if c = kBackslash then
      match rest with
      | [] => .error ⟨"Trailing escape characters not allowed in %s"⟩
      | escaped :: rest => parse segments (segment ++ [escaped]) insideBackticks rest
    else parse segments (segment ++ [c]) insideBackticks rest

def fromServerFormat (path : Bytes) : Hard FieldPath := parse [] [] false path

variable {segments : FieldPath} {segment text rest : Bytes} {insideBackticks : Bool} {c : UInt8}

theorem parse_backtick : parse segments segment insideBackticks (kBacktick :: rest) =
    parse segments segment (!insideBackticks) rest := by
  rw [parse.eq_def]
  rfl

theorem parse_dot : parse segments segment false (kDot :: rest) = (do
    let segments ← finishSegment segments segment
    parse segments [] false rest) := by
  rw [parse.eq_def]
  rfl

/-- An escaped byte is taken as it was. -/
theorem parse_escapedByte (hnul : c ≠ 0) (hdot : c = kDot → insideBackticks = true) :
    parse segments segment insideBackticks (escapedByte c ++ rest) =
      parse segments (segment ++ [c]) insideBackticks rest := by
  unfold escapedByte
  split_ifs with hescape
  · rfl
  · obtain ⟨hbackslash, hbacktick⟩ := not_or.mp hescape
    rw [singleton_append, parse.eq_def]
    simp only [if_neg hnul, if_neg hbacktick, if_neg hbackslash]
    split_ifs with h h'
    · rfl
    · exact absurd (hdot h) h'
    · rfl

theorem parse_escaped (hnul : 0 ∉ text) (hdot : kDot ∈ text → insideBackticks = true) :
    parse segments segment insideBackticks (text.flatMap escapedByte ++ rest) =
      parse segments (segment ++ text) insideBackticks rest := by
  induction text generalizing segment with
  | nil => rw [flatMap_nil, nil_append, append_nil]
  | cons c text ih =>
    rw [mem_cons, not_or] at hnul
    rw [flatMap_cons, append_assoc,
      parse_escapedByte (Ne.symm hnul.1) fun h => hdot (h ▸ mem_cons_self),
      ih hnul.2 fun h => hdot (mem_cons_of_mem c h), append_assoc, singleton_append]

/-- There is no dot in a segment that stands without backticks. -/
theorem not_dot_of_isValidIdentifier (h : isValidIdentifier (text.flatMap escapedByte)) :
    kDot ∉ text := by
  intro hmem
  have hescaped : kDot ∈ text.flatMap escapedByte :=
    mem_flatMap.mpr ⟨kDot, hmem, mem_singleton.mpr rfl⟩
  cases hlist : text.flatMap escapedByte with
  | nil => exact not_mem_nil (hlist ▸ hescaped)
  | cons first others =>
    rw [hlist, isValidIdentifier, Bool.and_eq_true, all_eq_true] at h
    rcases mem_cons.mp (hlist ▸ hescaped) with rfl | hothers
    · exact absurd h.1 (by decide)
    · exact absurd (h.2 _ hothers) (by decide)

theorem parse_escapedSegment (hnul : 0 ∉ text) :
    parse segments [] false (escapedSegment text ++ rest) = parse segments text false rest := by
  rw [escapedSegment]
  split_ifs with hvalid
  · exact parse_escaped hnul fun hdot => absurd hdot (not_dot_of_isValidIdentifier hvalid)
  · rw [cons_append, append_assoc, parse_backtick, Bool.not_false,
      parse_escaped hnul fun _ => rfl]
    exact parse_backtick

/-- The paths that have a text: not empty, as are their segments, and without null bytes. -/
def writable : Set FieldPath := {path | path ≠ [] ∧ ∀ segment ∈ path, segment ≠ [] ∧ 0 ∉ segment}

theorem parse_canonicalString {path : FieldPath} (h : path ∈ writable) :
    parse segments [] false (canonicalString path) = .ok (segments ++ path) := by
  obtain ⟨hpath, hsegments⟩ := h
  unfold canonicalString
  induction path generalizing segments with
  | nil => exact absurd rfl hpath
  | cons text path ih =>
    obtain ⟨⟨htext, hnul⟩, hrest⟩ := forall_mem_cons.mp hsegments
    have hfinish : finishSegment segments text = .ok (segments ++ [text]) := by
      rw [finishSegment, decide_eq_true htext]
      rfl
    cases path with
    | nil =>
      refine (parse_escapedSegment hnul : _ = parse segments text false []).trans ?_
      rw [parse, finish, hfinish]
      rfl
    | cons next path =>
      refine (parse_escapedSegment hnul).trans (parse_dot.trans ?_)
      rw [hfinish, ok_bind]
      refine (ih (cons_ne_nil next path) hrest).trans ?_
      rw [append_assoc]
      rfl

/-- A path is read back from its text, so different paths have different texts. -/
theorem fromServerFormat_canonicalString :
    (∀ path ∈ writable, fromServerFormat (canonicalString path) = .ok path) ∧
      Set.InjOn canonicalString writable := by
  have hread : ∀ path ∈ writable, fromServerFormat (canonicalString path) = .ok path :=
    fun path h => parse_canonicalString h
  refine ⟨hread, fun path h path' h' heq => Except.ok.inj (ε := HardFail) ?_⟩
  rw [← hread path h, ← hread path' h', heq]

/-- Dots, backticks and backslashes in a segment, and a segment that starts with a digit. -/
def special : FieldPath := [[kDot, kBacktick, kBackslash], [0x31, 0x61]]

theorem fromServerFormat_canonicalString_special :
    special ∈ writable ∧ fromServerFormat (canonicalString special) = .ok special := by
  have hpath : special ∈ writable := ⟨cons_ne_nil _ _, by decide⟩
  exact ⟨hpath, fromServerFormat_canonicalString.1 special hpath⟩

end Firebase.Firestore.Model.FieldPath
