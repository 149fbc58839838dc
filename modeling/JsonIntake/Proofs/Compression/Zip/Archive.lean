import JsonIntake.Proofs.Compression.Zip.Reads
import JsonIntake.Source.Compressed

/-!
# Stored entries are read back

An archive with a stored entry is a local header, a name, extra fields, the
content and whatever comes behind it.  The size of the content stands in the
header or, if it is too large for that, in the first extra field for large
sizes that has room for it.  In both cases the first entry is the content.
-/

namespace JsonIntake.Zip

/-! ## Numbers one behind the other -/

/-- Numbers with the width of each. -/
def encode (numbers : List (Nat × Nat)) : List UInt8 :=
  numbers.flatMap fun number => LittleEndian.bytes number.1 number.2

theorem encode_cons (width n : Nat) (numbers : List (Nat × Nat)) :
    encode ((width, n) :: numbers) =
      LittleEndian.bytes width n ++ encode numbers :=
  rfl

theorem encode_append (before after : List (Nat × Nat)) :
    encode (before ++ after) = encode before ++ encode after :=
  List.flatMap_append

theorem length_encode (numbers : List (Nat × Nat)) :
    (encode numbers).length = (numbers.map Prod.fst).sum := by
  induction numbers with
  | nil => rfl
  | cons number numbers ih =>
      rw [encode_cons, List.length_append, LittleEndian.length_bytes, ih]
      rfl

theorem numberAt_append {front rest : List UInt8} {offset width n : Nat}
    (hoffset : front.length = offset) (hn : n < Nat.pow 256 width) :
    numberAt (front ++ (LittleEndian.bytes width n ++ rest)) offset width =
      n := by
  rw [numberAt, ← hoffset, List.drop_left,
    List.take_left' (LittleEndian.length_bytes _ _),
    LittleEndian.value_bytes hn]

/-- A number is read back behind the ones in front of it. -/
theorem numberAt_encode (front : List UInt8) (before : List (Nat × Nat))
    {rest : List UInt8} {after : List (Nat × Nat)} {offset width n : Nat}
    (hoffset : front.length + (before.map Prod.fst).sum = offset)
    (hn : n < Nat.pow 256 width) :
    numberAt (front ++ (encode (before ++ (width, n) :: after) ++ rest))
      offset width = n := by
  rw [encode_append, encode_cons, List.append_assoc, List.append_assoc,
    ← List.append_assoc front]
  refine numberAt_append ?_ hn
  rw [List.length_append, length_encode, hoffset]

/-! ## Extra fields -/

structure ExtraField where
  id : UInt16
  body : List UInt8
  length_lt : body.length < 65536

namespace ExtraField

def bytes (field : ExtraField) : List UInt8 :=
  encode [(2, field.id.toNat), (2, field.body.length)] ++ field.body

def isLargeSize (field : ExtraField) : Bool :=
  field.id == 1 && 16 ≤ field.body.length

/-- The second number in the body. -/
def size (field : ExtraField) : Nat :=
  LittleEndian.value ((field.body.drop 8).take 8)

variable (field : ExtraField) (rest : List UInt8)

theorem length_bytes : field.bytes.length = 4 + field.body.length := by
  rw [bytes, List.length_append, length_encode]
  rfl

theorem numberAt_id :
    numberAt (field.bytes ++ rest) 0 2 = field.id.toNat := by
  rw [bytes, List.append_assoc]
  exact numberAt_encode [] [] rfl field.id.toNat_lt

theorem numberAt_length :
    numberAt (field.bytes ++ rest) 2 2 = field.body.length := by
  rw [bytes, List.append_assoc]
  exact numberAt_encode [] [(2, field.id.toNat)] rfl field.length_lt

theorem drop_bytes :
    (field.bytes ++ rest).drop 4 = field.body ++ rest := by
  rw [bytes, List.append_assoc]
  exact List.drop_left' (length_encode _)

theorem isLargeSize_iff :
    field.isLargeSize = true ↔
      field.id.toNat = largeSizeField ∧ 16 ≤ field.body.length := by
  rw [isLargeSize, Bool.and_eq_true, beq_iff_eq, decide_eq_true_iff,
    ← UInt16.toNat_inj]
  rfl

theorem visit_bytes :
    visit (field.bytes ++ rest) =
      if field.isLargeSize then .done (some field.size) else .next rest := by
  have hlength := field.length_bytes
  -- The body is behind the first four bytes, what follows it behind the body.
  rw [visit, field.numberAt_id, field.numberAt_length, field.drop_bytes,
    List.take_left, ← List.drop_drop, field.drop_bytes, List.drop_left,
    if_neg (by rw [List.length_append]; omega)]
  simp only [field.isLargeSize_iff]
  rfl

end ExtraField

theorem sizeInExtra?_fields {fields : List ExtraField} {steps : Nat}
    (hsteps : (fields.flatMap ExtraField.bytes).length < steps) :
    sizeInExtra? steps (fields.flatMap ExtraField.bytes) =
      (fields.find? ExtraField.isLargeSize).map ExtraField.size := by
  induction fields generalizing steps with
  | nil =>
      obtain ⟨steps, rfl⟩ := Nat.exists_eq_add_one_of_ne_zero
        (Nat.ne_zero_of_lt hsteps)
      rfl
  | cons field fields ih =>
      rw [List.flatMap_cons, List.length_append, field.length_bytes] at hsteps
      obtain ⟨steps, rfl⟩ := Nat.exists_eq_add_one_of_ne_zero
        (Nat.ne_zero_of_lt hsteps)
      rw [List.flatMap_cons, sizeInExtra?_succ, field.visit_bytes,
        List.find?_cons]
      cases field.isLargeSize with
      | true => rfl
      | false => exact ih (by omega)

/-! ## Local headers -/

/-- What a local header says besides the method and the lengths of what
follows it. -/
structure LocalHeader where
  version : UInt16
  flags : UInt16
  stamp : UInt32
  checksum : UInt32
  compressedSize : UInt32
  size : UInt32

def LocalHeader.numbers (header : LocalHeader)
    (method nameLength extraLength : Nat) : List (Nat × Nat) :=
  [(2, header.version.toNat), (2, header.flags.toNat), (2, method),
    (4, header.stamp.toNat), (4, header.checksum.toNat),
    (4, header.compressedSize.toNat), (4, header.size.toNat),
    (2, nameLength), (2, extraLength)]

/-- An archive that starts with a stored entry. -/
def storedArchive (header : LocalHeader) (name extra payload trailing :
    List UInt8) : List UInt8 :=
  signature ++ (encode (header.numbers 0 name.length extra.length) ++
    (name ++ (extra ++ (payload ++ trailing))))

section StoredArchive

variable {header : LocalHeader} {name extra payload trailing : List UInt8}

theorem length_storedArchive (header : LocalHeader)
    (name extra payload trailing : List UInt8) :
    (storedArchive header name extra payload trailing).length =
      headerLength + name.length + extra.length + payload.length +
        trailing.length := by
  simp only [storedArchive, List.length_append, length_encode]
  change 4 + (26 + _) = 30 + _ + _ + _ + _
  omega

theorem numberAt_flags :
    numberAt (storedArchive header name extra payload trailing) 6 2 =
      header.flags.toNat :=
  numberAt_encode signature [(2, _)] rfl header.flags.toNat_lt

theorem numberAt_method :
    numberAt (storedArchive header name extra payload trailing) 8 2 = 0 :=
  numberAt_encode signature [(2, _), (2, _)] rfl (by decide)

theorem numberAt_compressedSize :
    numberAt (storedArchive header name extra payload trailing) 18 4 =
      header.compressedSize.toNat :=
  numberAt_encode signature [(2, _), (2, _), (2, _), (4, _), (4, _)] rfl
    header.compressedSize.toNat_lt

theorem extraStart_storedArchive (hname : name.length < 65536) :
    extraStart (storedArchive header name extra payload trailing) =
      headerLength + name.length :=
  congrArg (headerLength + ·) <|
    numberAt_encode signature
      [(2, _), (2, _), (2, _), (4, _), (4, _), (4, _), (4, _)] rfl hname

theorem dataStart_storedArchive (hname : name.length < 65536)
    (hextra : extra.length < 65536) :
    dataStart (storedArchive header name extra payload trailing) =
      headerLength + name.length + extra.length := by
  have hlength :
      numberAt (storedArchive header name extra payload trailing) 28 2 =
        extra.length :=
    numberAt_encode signature
      [(2, _), (2, _), (2, _), (4, _), (4, _), (4, _), (4, _), (2, _)] rfl
      hextra
  rw [dataStart, extraStart_storedArchive hname, hlength]

theorem drop_storedArchive :
    (storedArchive header name extra payload trailing).drop
        (headerLength + name.length) =
      extra ++ (payload ++ trailing) := by
  rw [storedArchive, ← List.append_assoc, ← List.append_assoc]
  refine List.drop_left' ?_
  rw [List.length_append, List.length_append, length_encode]
  rfl

theorem extraFields_storedArchive (hname : name.length < 65536)
    (hextra : extra.length < 65536) :
    extraFields (storedArchive header name extra payload trailing) =
      extra := by
  rw [extraFields, dataStart_storedArchive hname hextra,
    extraStart_storedArchive hname, drop_storedArchive,
    Nat.add_sub_cancel_left, List.take_left]

theorem content_stored {flags : Nat} (hflags : flags.testBit 3 = false) :
    content flags 0 payload.length (payload ++ trailing) = .ok payload := by
  have hsized : ¬ flags / 8 % 2 = 1 := by
    rw [Nat.testBit_eq_decide_div_mod_eq, decide_eq_false_iff_not] at hflags
    exact hflags
  have hsplit : splitExact? payload.length (payload ++ trailing) =
      some (payload, trailing) := by
    rw [splitExact?_of_le (List.length_append ▸ Nat.le_add_right _ _),
      List.take_left, List.drop_left]
  simp only [content, if_neg hsized, hsplit]

/-- Once the size is known, the first entry is the content. -/
theorem firstEntry_of_contentSize (hname : name.length < 65536)
    (hextra : extra.length < 65536)
    (hflags : header.flags.toNat.testBit 3 = false)
    (hsize : contentSize (storedArchive header name extra payload trailing) =
      .ok payload.length) :
    firstEntry (storedArchive header name extra payload trailing) =
      .ok payload := by
  have hlength := length_storedArchive header name extra payload trailing
  have hsignature :
      (storedArchive header name extra payload trailing).take 4 = signature :=
    List.take_left' rfl
  rw [firstEntry, if_neg (not_or.mpr ⟨by omega, not_not_intro hsignature⟩),
    dataStart_storedArchive hname hextra, if_neg (by omega), hsize,
    numberAt_flags, numberAt_method, ← List.drop_drop, drop_storedArchive,
    List.drop_left]
  exact content_stored hflags

end StoredArchive

/-- Where an archive has the size of its content. -/
inductive AnnouncesSize (header : LocalHeader) (fields : List ExtraField)
    (size : Nat) : Prop
  | inHeader (hsize : header.compressedSize.toNat = size)
      (hsmall : size < 0xFFFFFFFF)
  | inExtra {field : ExtraField}
      (helsewhere : header.compressedSize = 0xFFFFFFFF)
      (hfirst : fields.find? ExtraField.isLargeSize = some field)
      (hsize : field.size = size)

theorem AnnouncesSize.contentSize_eq {header : LocalHeader}
    {fields : List ExtraField} {name payload trailing : List UInt8}
    {size : Nat} (hannounces : AnnouncesSize header fields size)
    (hname : name.length < 65536)
    (hfields : (fields.flatMap ExtraField.bytes).length < 65536) :
    contentSize (storedArchive header name (fields.flatMap ExtraField.bytes)
      payload trailing) = .ok size := by
  unfold contentSize
  dsimp only
  rw [numberAt_compressedSize]
  cases hannounces with
  | inHeader hsize hsmall =>
      have hhere : size ≠ sizeElsewhere := Nat.ne_of_lt hsmall
      rw [hsize, if_neg hhere]
  | @inExtra field helsewhere hfirst hsize =>
      have hthere : header.compressedSize.toNat = sizeElsewhere :=
        congrArg UInt32.toNat helsewhere
      rw [if_pos hthere, extraFields_storedArchive hname hfields,
        sizeInExtra?_fields (Nat.lt_add_one _), hfirst, Option.map_some,
        hsize]

theorem firstEntry_storedArchive {header : LocalHeader}
    (fields : List ExtraField) {name payload trailing : List UInt8}
    (hname : name.length ≤ 65535)
    (hfields : (fields.flatMap ExtraField.bytes).length ≤ 65535)
    (hflags : header.flags.toNat.testBit 3 = false)
    (hannounces : AnnouncesSize header fields payload.length) :
    firstEntry (storedArchive header name (fields.flatMap ExtraField.bytes)
      payload trailing) = .ok payload := by
  rw [← Nat.lt_succ_iff] at hname hfields
  exact firstEntry_of_contentSize hname hfields hflags
    (hannounces.contentSize_eq hname hfields)

/-! ## Archives with one entry -/

/-- The header in front of some content. -/
def LocalHeader.ofContent (content : List UInt8) : LocalHeader :=
  ⟨20, 0, 0, crc32 content, .ofNat content.length, .ofNat content.length⟩

theorem LocalHeader.ofContent_compressedSize {content : List UInt8}
    (hcontent : content.length < 0xFFFFFFFF) :
    (ofContent content).compressedSize.toNat = content.length :=
  UInt32.toNat_ofNat_of_lt' (Nat.lt_trans hcontent (by decide))

theorem stored_eq {name content : List UInt8} (hname : name.length ≤ 65535)
    (hcontent : content.length < 0xFFFFFFFF) :
    stored name content =
      storedArchive (.ofContent content) name [] content [] := by
  have hsize : (UInt32.ofNat content.length).toNat = content.length :=
    LocalHeader.ofContent_compressedSize hcontent
  have hwhole : min content.length (Nat.pow 2 32 - 1) = content.length :=
    Nat.min_eq_left (Nat.le_of_lt hcontent)
  have hwholeName : min name.length 65535 = name.length :=
    Nat.min_eq_left hname
  simp only [stored, storedArchive, LocalHeader.numbers,
    LocalHeader.ofContent, encode_cons, hsize, hwhole, hwholeName,
    List.append_assoc, List.append_nil]
  rfl

theorem decompress_stored {name content : List UInt8}
    (hname : name.length ≤ 65535) (hcontent : content.length < 0xFFFFFFFF) :
    decompress .zip (stored name content) = .ok content := by
  have hannounces :
      AnnouncesSize (.ofContent content) [] content.length :=
    .inHeader (LocalHeader.ofContent_compressedSize hcontent) hcontent
  have hentry :
      firstEntry (storedArchive (.ofContent content) name [] content []) =
        .ok content :=
    firstEntry_storedArchive [] hname (by decide) (Nat.zero_testBit 3)
      hannounces
  rw [decompress, stored_eq hname hcontent, hentry]
  rfl

/-- Reading the first entry never leaves the archive, and the walk over the
extra fields ends by itself.  A stored entry with its size in the header or in
an extra field is read back, whatever else there is. -/
theorem firstEntry_within_bounds_and_exact :
    (∀ archive, firstEntry? archive = some (firstEntry archive)) ∧
      (∀ extra steps, extra.length < steps →
        extraSize? extra = some (sizeInExtra? steps extra)) ∧
      (∀ header name fields payload trailing,
        name.length ≤ 65535 →
        (fields.flatMap ExtraField.bytes).length ≤ 65535 →
        header.flags.toNat.testBit 3 = false →
        AnnouncesSize header fields payload.length →
        firstEntry (storedArchive header name
          (fields.flatMap ExtraField.bytes) payload trailing) =
            .ok payload) ∧
      ∀ name content, name.length ≤ 65535 → content.length < 0xFFFFFFFF →
        decompress .zip (stored name content) = .ok content :=
  ⟨firstEntry?_eq, fun _ _ => extraSize?_eq,
    fun _ _ fields _ _ => firstEntry_storedArchive fields,
    fun _ _ => decompress_stored⟩

/-- The size in the third of four extra fields: one of another kind and one
for large sizes without room for two numbers stand in front of it, and behind
it one with another size. -/
theorem firstEntry_within_bounds_and_exact_size_in_extra :
    let small : ExtraField := ⟨0x0001, List.replicate 8 9, by decide⟩
    let large : ExtraField :=
      ⟨0x0001, [0, 0, 0, 0, 0, 0, 0, 0, 3, 0, 0, 0, 0, 0, 0, 0], by decide⟩
    let fields : List ExtraField :=
      [⟨0x5455, [1, 2], by decide⟩, small, large,
        ⟨0x0001, List.replicate 20 7, by decide⟩]
    let header : LocalHeader := ⟨45, 0xFFF7, 1, 2, 0xFFFFFFFF, 0xFFFFFFFF⟩
    let archive := storedArchive header [120]
      (fields.flatMap ExtraField.bytes) [123, 125, 10] [80, 75, 1, 2]
    firstEntry archive = .ok [123, 125, 10] ∧
      firstEntry? archive = some (.ok [123, 125, 10]) := by
  intro small large fields header archive
  obtain ⟨hbounds, -, hexact, -⟩ := firstEntry_within_bounds_and_exact
  have hentry : firstEntry archive = .ok [123, 125, 10] :=
    hexact header [120] fields [123, 125, 10] [80, 75, 1, 2] (by decide)
      (by decide) (by decide) (.inExtra rfl rfl rfl)
  exact ⟨hentry, (hbounds archive).trans (congrArg some hentry)⟩

end JsonIntake.Zip
