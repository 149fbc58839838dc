import JsonIntake.Proofs.Quote.Strings
import JsonIntake.Proofs.Read.Run
import JsonIntake.Proofs.Records.Document

/-!
# Documents of several sources

A document is read as one batch, and between the bytes of two sources stands
a comma.  That is a separator of values, but also of items and members: where
something is open at the end of the first sources, the later ones go on with
it, and a value is read that has bytes of both.  Where nothing is open, the
records of all are those of the first sources and then those of the later
ones.
-/

namespace JsonIntake

namespace ReadOptions

variable {options : ReadOptions}

/-- The usual options, for a document. -/
def document : ReadOptions := { default with lines := false }

/-- What the tokenizer is given for an ingested document. -/
def documentBuffer (options : ReadOptions) (ingested : Buffer) : Buffer :=
  if options.normalize then (normalizeQuotes none ingested).output
  else ingested

def documentText (options : ReadOptions) (bytes : List UInt8) :
    List UInt8 :=
  if options.normalize then normalText none bytes else bytes

theorem toList_documentBuffer (ingested : Buffer) :
    (options.documentBuffer ingested).toList =
      options.documentText ingested.toList := by
  unfold documentBuffer documentText
  split
  · exact normalizeQuotes_output none ingested
  · rfl

theorem documentText_nil : options.documentText [] = [] := by
  unfold documentText
  split
  · exact normalText_nil none
  · rfl

/-- The text in front of a comma is not touched by what follows, and where it
leaves nothing open it does not touch that either. -/
theorem documentText_append_comma (front back : List UInt8) :
    ∃ later,
      options.documentText (front ++ 44 :: back) =
        options.documentText front ++ 44 :: later ∧
      (NothingOpen (options.documentText front) →
        later = options.documentText back) := by
  unfold documentText
  split
  · obtain ⟨later, hlater, hback⟩ := normalText_append_comma front back
    exact ⟨later, hlater, fun hclosed => hback (after_eq_outsideString hclosed)⟩
  · exact ⟨back, rfl, fun _ => rfl⟩

end ReadOptions

namespace SourceSet

/-- Ingest sources as one document and split it into records. -/
def documentRecords (options : ReadOptions) (set : SourceSet) :
    Except Failure (List Record) :=
  let ingested := ingest Buffer.empty set (.toEnd 0) options.delimiter
  match ingested.count with
  | .error failure => .error failure
  | .ok _ =>
    (RecordList.ofDocument options.recovery options.delimiter
      (options.documentBuffer ingested.buffer).toList).map RecordList.toList

/-- The text that the sources are split as. -/
def documentText (options : ReadOptions) (set : SourceSet) : List UInt8 :=
  options.documentText (joinPieces 44 set.contents)

section Records

variable {options : ReadOptions} {set : SourceSet} {records : List Record}

theorem documentRecords_eq_ok (hlines : options.lines = false)
    (hrecovery : options.recovery = .fail) (hsound : set.Sound)
    (hexact : set.Exact) :
    set.documentRecords options = .ok records ↔
      Document (set.documentText options) records := by
  have hdelimiter : options.delimiter = 44 := by
    simp [ReadOptions.delimiter, hlines]
  have hcount := hsound.ingest_count (hsound.visible hexact)
    (hsound.fits hexact) (.toEnd 0) 44 Buffer.empty (Nat.zero_le _)
  have hbuffer := hsound.ingest_all hexact 44 Buffer.empty
  simp only [documentRecords, hdelimiter, hrecovery, hcount,
    ReadOptions.toList_documentBuffer, hbuffer, documentText]
  constructor
  · intro hok
    cases hlist : RecordList.ofDocument .fail 44
        (options.documentText (joinPieces 44 set.contents)) with
    | error failure =>
        rw [hlist] at hok
        exact absurd hok nofun
    | ok list =>
        obtain ⟨rows, hdocument, rfl⟩ := RecordList.ofDocument_eq_ok.mp hlist
        rw [hlist] at hok
        cases hok
        rwa [RecordList.toList_push]
  · intro hdocument
    rw [RecordList.ofDocument_eq_ok.mpr ⟨records, hdocument, rfl⟩]
    exact congrArg Except.ok (RecordList.toList_push records)

end Records

/-! ## Reading a document -/

section Reading

variable {options : ReadOptions} {set : SourceSet} {read : ReadTable}

/-- A document that is read is one batch of everything. -/
theorem runs_of_readSet (hlines : options.lines = false)
    (hread : (readSet defaultTokenizer set options).result = .ok read) :
    ∃ batch before result after,
      batch.range = .toEnd 0 ∧ before.set = set ∧
        ReadState.Runs options batch before result after := by
  unfold readSet requestedRange at hread
  simp only [hlines, Bool.false_eq_true, if_false] at hread
  cases hbytes : options.byteRange with
  | some requested =>
      rw [hbytes] at hread
      exact absurd hread nofun
  | none =>
      rw [hbytes] at hread
      dsimp only at hread
      split at hread
      · exact absurd hread nofun
      split at hread
      · exact absurd hread nofun
      next plan next hmake =>
        obtain ⟨-, -, ⟨-, rfl, rfl⟩ | ⟨hcut, -, -⟩⟩ := Plan.make_cases hmake
        · obtain ⟨⟨⟩, hdone, -⟩ := Except.map_eq_ok.mp hread
          rw [Plan.single, Plan.batchesOf, List.zipIdx_singleton,
            List.map_singleton, ReadState.processAll_singleton] at hdone
          obtain ⟨result, hruns⟩ :=
            ReadState.runs_of_process (Prod.ext hdone rfl)
          exact ⟨_, _, result, _, rfl, rfl, hruns⟩
        · exact absurd hcut nofun

/-- A batch of everything that was run has been split into records. -/
theorem documentRecords_of_runs {batch : Batch} {before after : ReadState}
    {result : BatchResult} (hlines : options.lines = false)
    (hrange : batch.range = .toEnd 0)
    (hruns : ReadState.Runs options batch before result after) :
    ∃ records, before.set.documentRecords options = .ok records := by
  obtain ⟨records, hrecords, -, -⟩ := tokenize_eq_ok_iff.mp hruns.tokenized
  have hingested := hruns.ingested
  rw [hrange] at hingested
  simp only [ParseOptions.records, ReadOptions.parseOptions,
    ReadOptions.prepare, hlines, Bool.false_eq_true, if_false] at hrecords
  refine ⟨records.toList, ?_⟩
  rw [documentRecords, hingested]
  exact congrArg (Except.map RecordList.toList) hrecords

/-- A document that is read has been split into records. -/
theorem documentRecords_of_readSet (hlines : options.lines = false)
    (hread : (readSet defaultTokenizer set options).result = .ok read) :
    ∃ records, set.documentRecords options = .ok records := by
  obtain ⟨batch, before, result, after, hrange, rfl, hruns⟩ :=
    runs_of_readSet hlines hread
  exact documentRecords_of_runs hlines hrange hruns

end Reading

/-! ## Early and late sources -/

section Append

variable {options : ReadOptions} {early late : List Source}
  {compression : Compression} {records : List Record}

theorem Sound.of_append (hsound : Sound ⟨early ++ late, compression⟩) :
    Sound ⟨early, compression⟩ ∧ Sound ⟨late, compression⟩ := by
  have hsources := List.forall_mem_append.mp hsound.sources
  have hlength := hsound.length_lt
  simp only [contents, List.map_append, List.flatten_append,
    List.length_append] at hlength
  exact ⟨⟨hsources.1, Nat.lt_of_le_of_lt (Nat.le_add_right _ _) hlength⟩,
    ⟨hsources.2, Nat.lt_of_le_of_lt (Nat.le_add_left _ _) hlength⟩⟩

/-- Where the text of the early sources ends, and what stands there. -/
theorem documentText_append (options : ReadOptions)
    (early late : List Source) (compression : Compression) :
    (documentText options ⟨early, compression⟩ = [] ∧
      documentText options ⟨early ++ late, compression⟩ =
        documentText options ⟨late, compression⟩) ∨
    (documentText options ⟨late, compression⟩ = [] ∧
      documentText options ⟨early ++ late, compression⟩ =
        documentText options ⟨early, compression⟩) ∨
    ∃ later,
      documentText options ⟨early ++ late, compression⟩ =
        documentText options ⟨early, compression⟩ ++ 44 :: later ∧
      (NothingOpen (documentText options ⟨early, compression⟩) →
        later = documentText options ⟨late, compression⟩) := by
  simp only [documentText, contents, List.map_append]
  rcases joinPieces_append 44 (early.map Source.content)
      (late.map Source.content) with
    ⟨hearly, hlate⟩ | ⟨hlate, hearly⟩ | hboth
  · exact .inl ⟨by rw [hearly, ReadOptions.documentText_nil], by rw [hlate]⟩
  · exact .inr (.inl ⟨by rw [hlate, ReadOptions.documentText_nil],
      by rw [hearly]⟩)
  · rw [hboth]
    exact .inr (.inr (ReadOptions.documentText_append_comma _ _))

/-- A document of all sources has a value with bytes of both sides, or it
falls into documents of the two sides. -/
theorem document_append
    (hdocument :
      Document (documentText options ⟨early ++ late, compression⟩) records) :
    (Crosses (documentText options ⟨early, compression⟩).length
        (documentText options ⟨early ++ late, compression⟩) ∧
      ¬ NothingOpen (documentText options ⟨early, compression⟩)) ∨
    (¬ Crosses (documentText options ⟨early, compression⟩).length
        (documentText options ⟨early ++ late, compression⟩) ∧
      ∃ front back,
        Document (documentText options ⟨early, compression⟩) front ∧
        Document (documentText options ⟨late, compression⟩) back ∧
        records = front ++ back) := by
  rcases documentText_append options early late compression with
    ⟨hearly, hlate⟩ | ⟨hlate, hearly⟩ | ⟨later, hboth, hlater⟩
  · rw [hlate] at hdocument
    rw [hearly]
    refine .inr ⟨not_crosses_zero, [], records, .blank nofun, hdocument, rfl⟩
  · rw [hearly] at hdocument ⊢
    rw [hlate]
    exact .inr ⟨not_crosses_length, records, [], hdocument, .blank nofun,
      (List.append_nil records).symm⟩
  · rw [hboth] at hdocument ⊢
    rcases hdocument.cut with hcrosses | ⟨front, back, hfront, hback, hrows⟩
    · exact .inl ⟨hcrosses, hcrosses.not_nothingOpen⟩
    · refine .inr ⟨fun hcrosses =>
        hcrosses.not_nothingOpen hfront.nothingOpen, front, back, hfront, ?_,
        hrows⟩
      rwa [hlater hfront.nothingOpen] at hback

/-- A document that is read has been split into records.  Sources that are
split as one document have the records of the early ones and then those of the
late ones just if nothing is open where the early ones end, and no value has
bytes of both sides just then. -/
theorem documentRecords_append (hlines : options.lines = false)
    (hrecovery : options.recovery = .fail)
    (hsound : Sound ⟨early ++ late, compression⟩)
    (hexact : Exact ⟨early ++ late, compression⟩) :
    (∀ read,
      (readSet defaultTokenizer ⟨early ++ late, compression⟩ options).result =
          .ok read →
        ∃ records,
          documentRecords options ⟨early ++ late, compression⟩ =
            .ok records) ∧
    ∀ records,
      documentRecords options ⟨early ++ late, compression⟩ = .ok records →
      ((∃ front back,
          documentRecords options ⟨early, compression⟩ = .ok front ∧
          documentRecords options ⟨late, compression⟩ = .ok back ∧
          records = front ++ back) ↔
        NothingOpen (documentText options ⟨early, compression⟩)) ∧
      (¬ Crosses (documentText options ⟨early, compression⟩).length
          (documentText options ⟨early ++ late, compression⟩) ↔
        NothingOpen (documentText options ⟨early, compression⟩)) := by
  refine ⟨fun read => documentRecords_of_readSet hlines,
    fun records hsplit => ?_⟩
  rw [documentRecords_eq_ok hlines hrecovery hsound hexact] at hsplit
  have hparts := List.forall_mem_append.mp hexact
  simp only [
    documentRecords_eq_ok hlines hrecovery hsound.of_append.1 hparts.1,
    documentRecords_eq_ok hlines hrecovery hsound.of_append.2 hparts.2]
  rcases document_append hsplit with
    ⟨hcrosses, hopen⟩ | ⟨hcrosses, front, back, hfront, hback, hrows⟩
  · refine ⟨⟨?_, fun hclosed => absurd hclosed hopen⟩,
      ⟨fun hfree => absurd hcrosses hfree,
        fun hclosed => absurd hclosed hopen⟩⟩
    rintro ⟨front, back, hfront, -, -⟩
    exact hfront.nothingOpen
  · exact ⟨⟨fun _ => hfront.nothingOpen,
        fun _ => ⟨front, back, hfront, hback, hrows⟩⟩,
      ⟨fun _ => hfront.nothingOpen, fun _ => hcrosses⟩⟩

/-- The objects `{"a":1}` and `{'b':2}`. -/
theorem documentRecords_append_two_objects :
    documentRecords .document
        ⟨[.host [123, 34, 97, 34, 58, 49, 125],
          .host [123, 39, 98, 39, 58, 50, 125]], .none⟩ =
      .ok [some [("a", .number (.natural 1))],
        some [("b", .number (.natural 2))]] ∧
    NothingOpen
      (documentText .document
        ⟨[.host [123, 34, 97, 34, 58, 49, 125]], .none⟩) ∧
    ∃ front back,
      documentRecords .document
          ⟨[.host [123, 34, 97, 34, 58, 49, 125]], .none⟩ = .ok front ∧
      documentRecords .document
          ⟨[.host [123, 39, 98, 39, 58, 50, 125]], .none⟩ = .ok back ∧
      [some [("a", .number (.natural 1))],
        some [("b", .number (.natural 2))]] = front ++ back := by
  have hsound : Sound
      ⟨[.host [123, 34, 97, 34, 58, 49, 125]] ++
        [.host [123, 39, 98, 39, 58, 50, 125]], .none⟩ := by
    refine ⟨?_, by decide⟩
    rintro source (_ | ⟨_, _ | ⟨_, ⟨⟩⟩⟩) <;> exact trivial
  have hexact : Exact
      ⟨[.host [123, 34, 97, 34, 58, 49, 125]] ++
        [.host [123, 39, 98, 39, 58, 50, 125]], .none⟩ := by
    rintro source (_ | ⟨_, _ | ⟨_, ⟨⟩⟩⟩) <;> rfl
  refine ⟨rfl, rfl, ?_⟩
  exact ((documentRecords_append rfl rfl hsound hexact).2 _ rfl).1.mpr rfl

/-- An object that is not complete, `{"a":1`, and the remains of another one,
`"b":2}`: together they are read as one object. -/
theorem documentRecords_append_open_object :
    documentRecords .document
        ⟨[.host [123, 34, 97, 34, 58, 49],
          .host [34, 98, 34, 58, 50, 125]], .none⟩ =
      .ok [some [("a", .number (.natural 1)),
        ("b", .number (.natural 2))]] ∧
    documentRecords .document
        ⟨[.host [123, 34, 97, 34, 58, 49]], .none⟩ =
      .error (.malformedRecord 0
        "EOF while parsing an object at line 1 column 6") ∧
    Crosses 6
      (documentText .document
        ⟨[.host [123, 34, 97, 34, 58, 49],
          .host [34, 98, 34, 58, 50, 125]], .none⟩) := by
  refine ⟨rfl, rfl, ?_⟩
  have hok : RecordList.ofDocument .fail 44
      ([123, 34, 97, 34, 58, 49] ++ 44 :: [34, 98, 34, 58, 50, 125]) =
        .ok _ := rfl
  obtain ⟨rows, hdocument, -⟩ := RecordList.ofDocument_eq_ok.mp hok
  rcases hdocument.cut with hcrosses | ⟨front, -, hfront, -, -⟩
  · exact hcrosses
  · exact absurd hfront.nothingOpen nofun

end Append

end SourceSet

end JsonIntake
