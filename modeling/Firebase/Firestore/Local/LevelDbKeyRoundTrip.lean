import Firebase.Firestore.Local.LevelDbKeyOrder

/-!
# Reading keys back

What a class writes with `Key` it reads back with `Decode`.

The blank key `DocumentKey::Empty`, which stands for no document, can be written but is refused by
the reader.
-/

namespace Firebase.Firestore.Local

open Lib Util Model Writer List

variable {next : Bytes}

namespace Reader

/-- On a reader in order with the unread bytes `src`, the read returns `a` and leaves the
reader in order with the unread bytes `rest`. -/
def Yields {α : Type} (read : ReaderM α) (src : Bytes) (a : α) (rest : Bytes) : Prop :=
  read.run ⟨src, true⟩ = .ok (a, ⟨rest, true⟩)

variable {α β : Type}

theorem Yields.bind {read : ReaderM α} {next : α → ReaderM β} {src rest rest' : Bytes} {a : α}
    {b : β} (h : Yields read src a rest) (h' : Yields (next a) rest b rest') :
    Yields (read >>= next) src b rest' := by
  rw [Yields, StateT.run_bind, h]
  exact h'

theorem Yields.pure (a : α) (src : Bytes) : Yields (pure a) src a src := rfl

theorem Yields.get (src : Bytes) : Yields get src ⟨src, true⟩ src := rfl

theorem Yields.decode {read : ReaderM α} {key : Bytes} {a : α}
    (h : Yields read key a []) : decode key read = .ok (true, a) := by
  rw [Reader.decode, h]
  rfl

theorem yields_readSignedNumIncreasing (val : Int64) (rest : Bytes) :
    Yields readSignedNumIncreasing (OrderedCode.writeSignedNumIncreasing val ++ rest) val rest := by
  simp [Yields, readSignedNumIncreasing, OrderedCode.readSignedNumIncreasing_write]
  rfl

theorem yields_readString (s rest : Bytes) :
    Yields readString (OrderedCode.writeString s ++ rest) s rest := by
  simp [Yields, readString, OrderedCode.readString_writeString]
  rfl

/-- Reading a label tells whether it is the expected one. -/
theorem yields_readComponentLabelMatching (expected label : ComponentLabel) (rest : Bytes) :
    Yields (readComponentLabelMatching expected) (writeComponentLabel label ++ rest)
      (label.value == expected.value) rest := by
  exact (Yields.get _).bind ((yields_readSignedNumIncreasing label.value rest).bind
    ((Yields.get rest).bind (Yields.pure _ rest)))

theorem yields_expectLabel (label : ComponentLabel) (rest : Bytes) :
    Yields (expectLabel label) (writeComponentLabel label ++ rest) () rest := by
  refine (yields_readComponentLabelMatching label label rest).bind ?_
  simp [Yields.pure]

theorem yields_readTerminator : Yields readTerminator writeTerminator () [] := by
  have h := yields_expectLabel .terminator []
  rwa [append_nil] at h

theorem yields_readInt32 (value : Int32) (rest : Bytes) :
    Yields readInt32 (OrderedCode.writeSignedNumIncreasing value.toInt64 ++ rest) value rest := by
  have hmin : Int32.minValue.toInt64 ≤ value.toInt64 := Int32.toInt64_le.mpr (Int32.minValue_le _)
  have hmax : value.toInt64 ≤ Int32.maxValue.toInt64 := Int32.toInt64_le.mpr (Int32.le_maxValue _)
  refine (Yields.get _).bind ((yields_readSignedNumIncreasing value.toInt64 rest).bind
    ((Yields.get rest).bind ?_))
  rw [if_pos ⟨rfl, hmin, hmax⟩, Int32.toInt32_toInt64]
  exact Yields.pure value rest

theorem yields_readLabeledInt32 (label : ComponentLabel) (value : Int32) (rest : Bytes) :
    Yields (readLabeledInt32 label) (writeLabeledInt32 label value ++ rest) value rest := by
  rw [writeLabeledInt32, append_assoc]
  exact (yields_expectLabel label _).bind (yields_readInt32 value rest)

theorem yields_readLabeledString (label : ComponentLabel) (value rest : Bytes) :
    Yields (readLabeledString label) (writeLabeledString label value ++ rest) value rest := by
  rw [writeLabeledString, append_assoc]
  exact (yields_expectLabel label _).bind (yields_readString value rest)

theorem yields_readTableNameMatching (tableName rest : Bytes) :
    Yields (readTableNameMatching tableName) (writeTableName tableName ++ rest) () rest := by
  have h := yields_readLabeledString .tableName tableName rest
  have hmatch : Yields (readLabeledStringMatching .tableName tableName)
      (writeTableName tableName ++ rest) true rest := by
    refine h.bind ((Yields.get rest).bind ?_)
    simp [Yields.pure]
  exact hmatch.bind (Yields.pure () rest)

/-- The fields of a key come after the name of its table. -/
theorem Yields.decodeTable {read : ReaderM α} {table src : Bytes} {a : α}
    (h : Yields read src a []) : Reader.decode (writeTableName table ++ src) (do
      readTableNameMatching table
      read) = .ok (true, a) :=
  Yields.decode ((yields_readTableNameMatching table src).bind h)

theorem yields_last (a : α) : Yields (readTerminator >>= fun _ => pure a) writeTerminator a [] :=
  yields_readTerminator.bind (Yields.pure a [])

theorem yields_readSnapshotVersion (version : SnapshotVersion) (rest : Bytes) :
    Yields readSnapshotVersion (writeSnapshotVersion version ++ rest) version rest := by
  simp only [writeSnapshotVersion, append_assoc]
  refine (yields_expectLabel .snapshotVersion _).bind ?_
  refine (yields_readSignedNumIncreasing version.timestamp.seconds _).bind ?_
  refine (yields_readInt32 version.timestamp.nanoseconds rest).bind ?_
  rw [Timestamp.make_eq]
  rfl

/-- The bytes start with a label that ends a path. -/
def EndsPath (src : Bytes) : Prop :=
  ∃ label rest, label ≠ ComponentLabel.pathSegment ∧ src = writeComponentLabel label ++ rest

theorem endsPath_labeledInt32 {label : ComponentLabel} (h : label ≠ .pathSegment) (value : Int32)
    (rest : Bytes) : EndsPath (writeLabeledInt32 label value ++ rest) :=
  ⟨label, _, h, append_assoc _ _ _⟩

theorem endsPath_snapshotVersion (version : SnapshotVersion) (rest : Bytes) :
    EndsPath (writeSnapshotVersion version ++ rest) :=
  ⟨.snapshotVersion, _, by decide, append_assoc _ _ _⟩

theorem endsPath_terminator : EndsPath writeTerminator :=
  ⟨.terminator, [], by decide, (append_nil _).symm⟩

/-- The loop over the segments of a path ends at the label of the next component, which
it leaves unread. -/
theorem yields_readPathSegments (hnext : EndsPath next) (path : ResourcePath)
    (bound : Nat) (hbound : path.length < bound) (read : ResourcePath) :
    Yields (readPathSegments bound read) (writeResourcePath path ++ next) (read ++ path) next := by
  induction path generalizing bound read with
  | nil =>
    obtain ⟨label, rest, hlabel, rfl⟩ := hnext
    obtain ⟨bound, rfl⟩ : ∃ n, bound = n + 1 := ⟨bound - 1, by simp at hbound; omega⟩
    have hvalue : (label.value == ComponentLabel.pathSegment.value) = false := by
      revert hlabel
      cases label <;> decide
    have hread := yields_readComponentLabelMatching .pathSegment label rest
    rw [hvalue] at hread
    have hempty : Reader.empty ⟨writeComponentLabel label ++ rest, true⟩ = false := by
      simp [Reader.empty, writeComponentLabel_eq]
    simp only [writeResourcePath_nil, nil_append, append_nil]
    refine (Yields.get _).bind ?_
    rw [hempty]
    refine hread.bind ?_
    rfl
  | cons segment path ih =>
    obtain ⟨bound, rfl⟩ : ∃ n, bound = n + 1 := ⟨bound - 1, by simp at hbound; omega⟩
    simp only [writeResourcePath_cons, append_assoc]
    refine (Yields.get _).bind ?_
    rw [if_neg (by simp [Reader.empty, writeComponentLabel_eq])]
    refine (yields_readComponentLabelMatching .pathSegment .pathSegment _).bind ?_
    rw [if_neg (by decide)]
    refine (yields_readString segment _).bind ((Yields.get _).bind ?_)
    have h := ih bound (by simpa using hbound) (read ++ [segment])
    rw [append_assoc] at h
    exact h

theorem yields_readResourcePath (hnext : EndsPath next) (path : ResourcePath) :
    Yields readResourcePath (writeResourcePath path ++ next) path next := by
  refine (Yields.get _).bind (yields_readPathSegments hnext path _ ?_ [])
  obtain ⟨label, rest, -, rfl⟩ := hnext
  have hlength := length_le_writeResourcePath path
  simp [writeComponentLabel_eq]
  omega

/-- Reading a document key needs a path with at least one segment. -/
theorem yields_readDocumentKey (hnext : EndsPath next) {key : DocumentKey}
    (hkey : key ≠ DocumentKey.empty) :
    Yields readDocumentKey (writeResourcePath key.path ++ next) key next := by
  have hpath : key.path ≠ [] := fun h => hkey (DocumentKey.ext h)
  refine (yields_readResourcePath hnext key.path).bind ((Yields.get next).bind ?_)
  rw [if_pos (by simpa using hpath), dif_pos key.isDocumentKey]
  exact Yields.pure key next

end Reader

/-! ## Round trips -/

open Reader

theorem LevelDbMutationKey.decode_key (userId : Bytes) (batchId : BatchId) :
    decode (key userId batchId) = .ok (true, ⟨userId, batchId⟩) := by
  simp only [key, append_assoc]
  refine Yields.decodeTable ?_
  refine (yields_readLabeledString _ userId _).bind ?_
  refine (yields_readLabeledInt32 _ batchId _).bind ?_
  exact yields_last _

variable {documentKey : DocumentKey}

theorem LevelDbDocumentMutationKey.decode_key (userId : Bytes)
    (hkey : documentKey ≠ DocumentKey.empty) (batchId : BatchId) :
    decode (key userId documentKey batchId) = .ok (true, ⟨userId, documentKey, batchId⟩) := by
  simp only [key, append_assoc]
  refine Yields.decodeTable ?_
  refine (yields_readLabeledString _ userId _).bind ?_
  refine (yields_readDocumentKey (endsPath_labeledInt32 (by decide) _ _) hkey).bind ?_
  refine (yields_readLabeledInt32 _ batchId _).bind ?_
  exact yields_last _

theorem LevelDbMutationQueueKey.decode_key (userId : Bytes) :
    decode (key userId) = .ok (true, ⟨userId⟩) := by
  refine Yields.decodeTable ?_
  refine (yields_readLabeledString _ userId _).bind ?_
  exact yields_last _

theorem LevelDbTargetGlobalKey.decode_key : decode (key) = .ok (true, ⟨⟩) := by
  refine Yields.decodeTable ?_
  exact yields_last _

theorem LevelDbTargetKey.decode_key (targetId : TargetId) :
    decode (key targetId) = .ok (true, ⟨targetId⟩) := by
  refine Yields.decodeTable ?_
  refine (yields_readLabeledInt32 _ targetId _).bind ?_
  exact yields_last _

theorem LevelDbQueryTargetKey.decode_key (canonicalId : Bytes) (targetId : TargetId) :
    decode (key canonicalId targetId) = .ok (true, ⟨canonicalId, targetId⟩) := by
  simp only [key, append_assoc]
  refine Yields.decodeTable ?_
  refine (yields_readLabeledString _ canonicalId _).bind ?_
  refine (yields_readLabeledInt32 _ targetId _).bind ?_
  exact yields_last _

theorem LevelDbTargetDocumentKey.decode_key (targetId : TargetId)
    (hkey : documentKey ≠ DocumentKey.empty) :
    decode (key targetId documentKey) = .ok (true, ⟨targetId, documentKey⟩) := by
  simp only [key, append_assoc]
  refine Yields.decodeTable ?_
  refine (yields_readLabeledInt32 _ targetId _).bind ?_
  refine (yields_readDocumentKey endsPath_terminator hkey).bind ?_
  exact yields_last _

theorem LevelDbDocumentTargetKey.decode_key
    (hkey : documentKey ≠ DocumentKey.empty) (targetId : TargetId) :
    decode (key documentKey targetId) = .ok (true, ⟨documentKey, targetId⟩) := by
  simp only [key, append_assoc]
  refine Yields.decodeTable ?_
  refine (yields_readDocumentKey (endsPath_labeledInt32 (by decide) _ _) hkey).bind ?_
  refine (yields_readLabeledInt32 _ targetId _).bind ?_
  exact yields_last _

theorem LevelDbRemoteDocumentKey.decode_key (hkey : documentKey ≠ DocumentKey.empty) :
    decode (key documentKey) = .ok (true, ⟨documentKey⟩) := by
  refine Yields.decodeTable ?_
  refine (yields_readDocumentKey endsPath_terminator hkey).bind ?_
  exact yields_last _

theorem LevelDbCollectionParentKey.decode_key (collectionId : Bytes) (parent : ResourcePath) :
    decode (key collectionId parent) = .ok (true, ⟨collectionId, parent⟩) := by
  simp only [key, append_assoc]
  refine Yields.decodeTable ?_
  refine (yields_readLabeledString _ collectionId _).bind ?_
  refine (yields_readResourcePath endsPath_terminator parent).bind ?_
  exact yields_last _

theorem LevelDbRemoteDocumentReadTimeKey.decode_key (collectionPath : ResourcePath)
    (readTime : SnapshotVersion) (documentId : Bytes) :
    decode (key collectionPath readTime documentId) =
      .ok (true, ⟨collectionPath, readTime, documentId⟩) := by
  simp only [key, append_assoc]
  refine Yields.decodeTable ?_
  refine (yields_readResourcePath (endsPath_snapshotVersion _ _) collectionPath).bind ?_
  refine (yields_readSnapshotVersion readTime _).bind ?_
  refine (yields_readLabeledString _ documentId _).bind ?_
  exact yields_last _

/-- Every class reads back what it writes, if the document key is not the blank one; different rows
have different keys, and no key is a proper prefix of another one. -/
theorem levelDbKey_roundTrip :
    ((∀ u b, LevelDbMutationKey.decode (LevelDbMutationKey.key u b) = .ok (true, ⟨u, b⟩)) ∧
      (∀ u d b, d ≠ DocumentKey.empty →
        LevelDbDocumentMutationKey.decode (LevelDbDocumentMutationKey.key u d b) =
          .ok (true, ⟨u, d, b⟩)) ∧
      (∀ u, LevelDbMutationQueueKey.decode (LevelDbMutationQueueKey.key u) = .ok (true, ⟨u⟩)) ∧
      LevelDbTargetGlobalKey.decode LevelDbTargetGlobalKey.key = .ok (true, ⟨⟩) ∧
      (∀ t, LevelDbTargetKey.decode (LevelDbTargetKey.key t) = .ok (true, ⟨t⟩)) ∧
      (∀ c t, LevelDbQueryTargetKey.decode (LevelDbQueryTargetKey.key c t) =
        .ok (true, ⟨c, t⟩)) ∧
      (∀ t d, d ≠ DocumentKey.empty →
        LevelDbTargetDocumentKey.decode (LevelDbTargetDocumentKey.key t d) =
          .ok (true, ⟨t, d⟩)) ∧
      (∀ d t, d ≠ DocumentKey.empty →
        LevelDbDocumentTargetKey.decode (LevelDbDocumentTargetKey.key d t) =
          .ok (true, ⟨d, t⟩)) ∧
      (∀ d, d ≠ DocumentKey.empty →
        LevelDbRemoteDocumentKey.decode (LevelDbRemoteDocumentKey.key d) = .ok (true, ⟨d⟩)) ∧
      (∀ c p, LevelDbCollectionParentKey.decode (LevelDbCollectionParentKey.key c p) =
        .ok (true, ⟨c, p⟩)) ∧
      ∀ p v d, LevelDbRemoteDocumentReadTimeKey.decode
        (LevelDbRemoteDocumentReadTimeKey.key p v d) = .ok (true, ⟨p, v, d⟩)) ∧
    (∀ a b : LevelDbKey, a ≠ b → a.encode ≠ b.encode) ∧
    ∀ a b : LevelDbKey, a.encode <+: b.encode → a.encode = b.encode := by
  refine ⟨⟨LevelDbMutationKey.decode_key, fun u d b h => LevelDbDocumentMutationKey.decode_key u h
    b,
    LevelDbMutationQueueKey.decode_key, LevelDbTargetGlobalKey.decode_key,
    LevelDbTargetKey.decode_key, LevelDbQueryTargetKey.decode_key,
    fun t d h => LevelDbTargetDocumentKey.decode_key t h,
    fun d t h => LevelDbDocumentTargetKey.decode_key h t,
    fun d h => LevelDbRemoteDocumentKey.decode_key h, LevelDbCollectionParentKey.decode_key,
    LevelDbRemoteDocumentReadTimeKey.decode_key⟩, ?_, ?_⟩
  · exact fun a b hab => LevelDbKey.encode_injective.ne hab
  · exact fun a b h => congrArg LevelDbKey.encode (LevelDbKey.encode_prefix_iff.mp h)

/-- The blank document key can be written but is not read back. -/
theorem levelDbRemoteDocumentKey_decode_empty :
    LevelDbRemoteDocumentKey.decode (LevelDbRemoteDocumentKey.key DocumentKey.empty) =
      .ok (false, ⟨DocumentKey.empty⟩) := by
  decide

end Firebase.Firestore.Local
