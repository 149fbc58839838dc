import JsonIntake.Proofs.Plan.Tiling
import JsonIntake.Proofs.Source.Opened
import JsonIntake.Proofs.Stream.Ingestion

/-!
# Batches do not change the records

A batch is ingested and normalized, and its lines are its records.  The
records of a plan are those of its batches, one behind the other.  They are
the records of the contents, each content taken by itself: cuts lie at
boundaries, and the bytes of two sources are kept apart where they meet.
-/

namespace JsonIntake

/-- The range of a whole read has all contents in it. -/
theorem readRange_toEnd {β : Type} {make : List UInt8 → List β}
    {contents : List (List UInt8)}
    (hlength : contents.flatten.length < Size.limit) :
    readRange make contents (ByteRange.toEnd 0).offset
        ((ByteRange.toEnd 0).offset + (ByteRange.toEnd 0).size) =
      contents.flatMap make := by
  apply readRange_all
  simp only [ByteRange.toEnd, Size.maximum]
  omega

namespace SourceSet

/-- The records of one range, and the sources after it. -/
def batchRecords (delimiter : UInt8) (set : SourceSet) (range : ByteRange) :
    Except Failure (List (List UInt8)) × SourceSet :=
  let ingested := ingest Buffer.empty set range delimiter
  (ingested.count.map fun _ =>
    recordLines delimiter
      (normalizeQuotes (some delimiter) ingested.buffer).output.toList,
    ingested.set)

/-- The records of batches that are run in order, up to the first failure. -/
def planRecords (delimiter : UInt8) :
    List Batch → SourceSet → Except Failure (List (List UInt8)) × SourceSet
  | [], set => (.ok [], set)
  | batch :: rest, set =>
    match set.batchRecords delimiter batch.range with
    | (.error failure, set) => (.error failure, set)
    | (.ok records, set) =>
      match planRecords delimiter rest set with
      | (.error failure, set) => (.error failure, set)
      | (.ok later, set) => (.ok (records ++ later), set)

/-- Sources that have been opened, whose contents can be got at, and whose
sizes and estimates fit in a word together. -/
structure Ready (least : Nat) (set : SourceSet) : Prop where
  opened : ∀ source ∈ set.sources, source.Opened least
  readable : ∀ source ∈ set.sources, source.Readable
  fits : set.Fits

variable {set next : SourceSet} {delimiter : UInt8} {range : ByteRange}
  {least : Nat}

theorem Ready.sound (hready : set.Ready least) : set.Sound :=
  hready.fits.sound fun source hsource =>
    (hready.opened source hsource).sound (hready.readable source hsource)

theorem Ready.visible (hready : set.Ready least) (hleast : 0 < least) :
    set.Visible :=
  fun source hsource =>
    (hready.opened source hsource).visible hleast
      (hready.readable source hsource)

theorem Sound.batchRecords (hsound : set.Sound) (hvisible : set.Visible)
    (hfits : set.Fits) (delimiter : UInt8)
    (hoffset : range.offset ≤ set.contents.flatten.length) :
    ∃ next,
      set.batchRecords delimiter range =
        (.ok (readRange (normalRecords delimiter) set.contents range.offset
          (range.offset + range.size)), next) ∧
      set.Reads next := by
  obtain ⟨hcount, hrecords, hreads⟩ :=
    hsound.ingest_linewise (linewise_normalRecords delimiter) hvisible hfits
      Buffer.empty hoffset
  refine ⟨_, ?_, hreads⟩
  simp only [SourceSet.batchRecords, normalizeQuotes_output]
  rw [hcount, ← hrecords]
  rfl

/-- Batches that tile a range keep its records. -/
theorem Sound.planRecords_of_tiling {contents : List (List UInt8)}
    {budget start stop : Nat} {batches : List Batch} (hsound : set.Sound)
    (hexact : set.Exact) (hcontents : set.contents = contents)
    (hstop : stop ≤ contents.flatten.length)
    (htiling : Tiling (IsBoundary delimiter contents) budget stop start
      (batches.map Batch.range)) :
    ∃ next,
      set.planRecords delimiter batches =
        (.ok (readRange (normalRecords delimiter) contents start stop),
          next) ∧
      set.Reads next := by
  have hlinewise := linewise_normalRecords delimiter
  generalize hranges : batches.map Batch.range = ranges at htiling
  induction htiling generalizing batches set with
  | done =>
      obtain rfl := List.map_eq_nil_iff.mp hranges
      refine ⟨set, ?_, hsound.refl⟩
      rw [readRange_eq_nil hlinewise _ (Nat.le_refl stop)]
      rfl
  | @step start cut ranges hlt hle hbudget hcut hrest ih =>
      obtain ⟨batch, rest, rfl, hbatch, hrestRanges⟩ :=
        List.map_eq_cons_iff.mp hranges
      have hoffset : batch.range.offset = start := by rw [hbatch]; rfl
      have hend : batch.range.offset + batch.range.size = cut := by
        rw [hbatch]
        simp only [ByteRange.between]
        omega
      obtain ⟨middle, hrecords, hreads⟩ :=
        hsound.batchRecords (hsound.visible hexact) (hsound.fits hexact)
          delimiter (by rw [hcontents]; omega : batch.range.offset ≤ _)
      obtain ⟨last, hlater, hreads'⟩ :=
        ih (hreads.sound hsound) (hreads.exact hexact)
          (hreads.contents_eq.trans hcontents) hrestRanges
      have happend :=
        readRange_cut hlinewise (Nat.le_of_lt hlt) hle hcut
      refine ⟨last, ?_, hreads.trans hreads'⟩
      rw [hcontents, hoffset, ← hoffset, hend] at hrecords
      simp only [planRecords, hrecords, hlater, happend, hoffset]

theorem planRecords_single {batch : Batch} {records : List (List UInt8)}
    (hrecords : set.batchRecords delimiter batch.range =
      (.ok records, next)) :
    set.planRecords delimiter [batch] = (.ok records, next) := by
  simp only [planRecords, hrecords, List.append_nil]

/-- The records of a plan are those of its range, whether it has one batch or
many. -/
theorem Sound.planRecords_make {lines : Bool} {tuning : Tuning} {plan : Plan}
    (hsound : set.Sound) (hvisible : set.Visible) (hfits : set.Fits)
    (hvalid : tuning.Valid)
    (hoffset : range.offset ≤ set.contents.flatten.length)
    (hmake : Plan.make set range delimiter lines tuning = (.ok plan, next)) :
    ∃ last,
      next.planRecords delimiter plan.batches =
        (.ok (readRange (normalRecords delimiter) set.contents range.offset
          (range.offset + range.size)), last) ∧
      set.Reads last := by
  rcases Plan.make_tiling hsound hvalid hmake with
    ⟨rfl, hsingle⟩ | ⟨hreads, hexact, -, htiling⟩
  · obtain ⟨batch, hbatches, hbatch⟩ := List.map_eq_singleton_iff.mp hsingle
    obtain ⟨last, hrecords, hreads⟩ :=
      hsound.batchRecords hvisible hfits delimiter hoffset
    rw [← hbatch] at hrecords
    refine ⟨last, ?_, hreads⟩
    rw [hbatches, planRecords_single hrecords, hbatch]
  · obtain ⟨last, hrecords, hreads'⟩ :=
      (hreads.sound hsound).planRecords_of_tiling hexact hreads.contents_eq
        (Nat.min_le_right _ _) htiling
    refine ⟨last, ?_, hreads.trans hreads'⟩
    have hstop := range.min_stop_eq hsound.length_lt
    rw [hrecords, hstop, readRange_min]

theorem batchRecords_unseen (delimiter : UInt8) {unseen : List Source}
    (rest : List Source) (compression : Compression)
    (hunseen : ∀ source ∈ unseen, source.size = 0) (hsize : range.size ≠ 0)
    (hoffset : range.offset = 0) :
    (batchRecords delimiter ⟨unseen ++ rest, compression⟩ range).1 =
      (batchRecords delimiter ⟨rest, compression⟩ range).1 := by
  obtain ⟨hreached, hbuffer⟩ :=
    ingestFrom_unseen delimiter Buffer.empty.clear rest hunseen hsize
  unfold batchRecords ingest
  simp only [hoffset, hreached, hbuffer]

theorem Fits.rest {unseen rest : List Source} {compression : Compression}
    (hfits : Fits ⟨unseen ++ rest, compression⟩) :
    Fits ⟨rest, compression⟩ := by
  unfold Fits at hfits ⊢
  rw [List.map_append, List.sum_append] at hfits
  exact Nat.lt_of_le_of_lt (Nat.le_add_left _ _) hfits

/-- A whole read in one batch has no records of sources in front that are
believed to be empty. -/
theorem planRecords_make_unseen {unseen rest : List Source} {tuning : Tuning}
    {plan : Plan} (hsound : set.Sound) (hfits : set.Fits)
    (hsources : set.sources = unseen ++ rest)
    (hunseen : ∀ source ∈ unseen, source.size = 0)
    (hvisible : ∀ source ∈ rest, source.Visible)
    (hsmall : set.sizes.sum ≤ tuning.maxBatchBytes)
    (hmake : Plan.make set (.toEnd 0) delimiter true tuning =
      (.ok plan, next)) :
    (next.planRecords delimiter plan.batches).1 =
      .ok (rest.flatMap fun source =>
        normalRecords delimiter source.content) := by
  obtain ⟨sources, compression⟩ := set
  obtain rfl : sources = unseen ++ rest := hsources
  obtain ⟨rfl, hranges⟩ := Plan.make_small hsmall hmake
  obtain ⟨batch, hbatches, hbatch⟩ := List.map_eq_singleton_iff.mp hranges
  have hrest : Sound ⟨rest, compression⟩ :=
    hfits.rest.sound fun source hsource =>
      hsound.sources source (List.mem_append_right _ hsource)
  have hoffset : (ByteRange.toEnd 0).offset ≤
      (contents ⟨rest, compression⟩).flatten.length := Nat.zero_le _
  obtain ⟨last, hrecords, -⟩ :=
    hrest.batchRecords hvisible hfits.rest delimiter hoffset
  rw [readRange_toEnd hrest.length_lt] at hrecords
  have hfirst := batchRecords_unseen delimiter rest compression hunseen
    (by decide : (ByteRange.toEnd 0).size ≠ 0) rfl
  rw [hrecords, ← hbatch] at hfirst
  have hpair :
      batchRecords delimiter ⟨unseen ++ rest, compression⟩ batch.range =
        (.ok _, (batchRecords delimiter _ batch.range).2) :=
    Prod.ext hfirst rfl
  rw [hbatches, planRecords_single hpair, contents, List.flatMap_map]

/-- Any plan of a whole read has the records of the contents, each of them
normalized and split by itself. -/
theorem planRecords_make_toEnd (set : SourceSet) {tuning : Tuning} {plan : Plan}
    (hready : set.Ready 1) (hvalid : tuning.Valid)
    (hmake : Plan.make set (.toEnd 0) delimiter true tuning =
      (.ok plan, next)) :
    (next.planRecords delimiter plan.batches).1 =
      .ok (set.contents.flatMap fun content =>
        recordLines delimiter
          (normalizeQuotes (some delimiter)
            (Buffer.ofList content)).output.toList) := by
  have hsound := hready.sound
  have hvisible := hready.visible Nat.one_pos
  obtain ⟨last, hrecords, -⟩ :=
    hsound.planRecords_make hvisible hready.fits hvalid (Nat.zero_le _) hmake
  rw [hrecords, readRange_toEnd hsound.length_lt]
  simp only [normalizeQuotes_output, Buffer.toList_ofList]
  rfl

/-- Two sources that are cut where they meet: `{'a':1}` with a line break and
`{"b":2}` without one. -/
theorem planRecords_make_toEnd_two_batches :
    ∃ plan next,
      Plan.make
          ⟨[.host [123, 39, 97, 39, 58, 49, 125, 10],
            .device ⟨#[123, 34, 98, 34, 58, 50, 125]⟩], .none⟩
          (.toEnd 0) 10 true ⟨2, 0, 1, 1, 8⟩ = (.ok plan, next) ∧
        plan.length = 2 ∧
        (next.planRecords 10 plan.batches).1 =
          .ok [[123, 34, 97, 34, 58, 49, 125],
            [123, 34, 98, 34, 58, 50, 125]] := by
  refine ⟨_, _, rfl, rfl, ?_⟩
  have hvalid : Tuning.Valid ⟨2, 0, 1, 1, 8⟩ :=
    ⟨by decide, by decide, by decide, by decide⟩
  refine (planRecords_make_toEnd
    ⟨[.host [123, 39, 97, 39, 58, 49, 125, 10],
      .device ⟨#[123, 34, 98, 34, 58, 50, 125]⟩], .none⟩
    ⟨?_, ?_, ?_⟩ hvalid rfl).trans rfl
  · rintro source (_ | ⟨_, _ | ⟨_, ⟨⟩⟩⟩)
    · exact .host _
    · exact .device _
  · rintro source (_ | ⟨_, _ | ⟨_, ⟨⟩⟩⟩) <;> rfl
  · decide

end SourceSet

end JsonIntake
