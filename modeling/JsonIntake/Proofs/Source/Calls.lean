import JsonIntake.Proofs.Source.Opened

/-!
# Calls of a compressed source

A compressed source answers every call as if its content were at hand from
the start.  A call that needs the content may make the size exact and may
keep the content; neither is ever taken back, and a source that keeps its
content does not change any more.  Where the region is broken, a source that
was opened without looking into it never changes at all, and every call that
needs the content fails in the same way.
-/

namespace JsonIntake

namespace CompressedSource

/-- What a compressed source may be asked. -/
inductive Call where
  | size
  | isSizeExact
  | exactSize
  | materialize
  | hostRead (offset size : Nat)
deriving DecidableEq

inductive Answer where
  | size (bytes : Nat)
  | exactness (exact : Bool)
  | count (result : Except Failure Nat)
  | read (result : Except Failure ReadBytes)

def call (source : CompressedSource) : Call → Answer × CompressedSource
  | .size => (.size (Source.compressed source).size, source)
  | .isSizeExact =>
    (.exactness (Source.compressed source).isSizeExact, source)
  | .exactSize =>
    match (Source.compressed source).exactSize with
    | (result, .compressed next) => (.count result, next)
    | (result, _) => (.count result, source)
  | .materialize => (.count source.materialize.1, source.materialize.2)
  | .hostRead offset size =>
    (.read (source.hostRead offset size).1, (source.hostRead offset size).2)

/-- The source after some calls. -/
def after (source : CompressedSource) (calls : List Call) :
    CompressedSource :=
  calls.foldl (fun source next => (source.call next).2) source

/-- The calls that cannot be answered by an estimate. -/
def Call.needsContent : Call → Bool
  | .size | .isSizeExact => false
  | .exactSize | .materialize | .hostRead _ _ => true

/-- How a call fails. -/
def Call.refusal (failure : Failure) : Call → Answer
  | .hostRead _ _ => .read (.error failure)
  | _ => .count (.error failure)

variable {source : CompressedSource} {content : List UInt8}
  {failure : Failure}

@[simp] theorem after_nil : source.after [] = source := rfl

@[simp] theorem after_cons (next : Call) (rest : List Call) :
    source.after (next :: rest) = (source.call next).2.after rest := rfl

theorem call_exactSize_of_exact (hexact : source.exact = true) :
    source.call .exactSize = (.count (.ok source.size), source) := by
  simp [call, Source.exactSize, hexact]

theorem call_exactSize_of_estimate (hestimate : ¬ source.exact = true) :
    source.call .exactSize = source.call .materialize := by
  simp [call, Source.exactSize, hestimate]

/-! ## What a call does to the source -/

theorem materialize_of_kept {bytes : List UInt8}
    (hkept : source.kept = some bytes) :
    source.materialize = (.ok source.size, source) := by
  simp only [materialize, hkept]

theorem hostRead_of_kept {bytes : List UInt8}
    (hkept : source.kept = some bytes) (offset size : Nat) :
    source.hostRead offset size =
      (sliceRead bytes offset size false, source) := by
  simp only [hostRead, hkept]

/-- A source that keeps its content does not change any more. -/
theorem call_of_kept {bytes : List UInt8} (hkept : source.kept = some bytes)
    (next : Call) : (source.call next).2 = source := by
  have hmaterialize : (source.call .materialize).2 = source := by
    simp only [call, materialize_of_kept hkept]
  cases next with
  | size => rfl
  | isSizeExact => rfl
  | exactSize =>
      by_cases hexact : source.exact = true
      · rw [call_exactSize_of_exact hexact]
      · rw [call_exactSize_of_estimate hexact, hmaterialize]
  | materialize => exact hmaterialize
  | hostRead offset size => simp only [call, hostRead_of_kept hkept]

theorem after_of_kept {bytes : List UInt8} (hkept : source.kept = some bytes)
    (calls : List Call) : source.after calls = source := by
  induction calls with
  | nil => rfl
  | cons next rest ih => rw [after_cons, call_of_kept hkept, ih]

theorem Holds.call (hholds : source.Holds content) (next : Call) :
    (source.call next).2.Holds content ∧
      (source.exact = true → (source.call next).2.exact = true) := by
  have hmaterialize :
      (source.call .materialize).2.Holds content ∧
        (source.call .materialize).2.exact = true := by
    obtain ⟨later, hlater, hafter, hexact⟩ := hholds.materialize
    simp only [CompressedSource.call, hlater]
    exact ⟨hafter, hexact⟩
  cases next with
  | size => exact ⟨hholds, id⟩
  | isSizeExact => exact ⟨hholds, id⟩
  | exactSize =>
      by_cases hexact : source.exact = true
      · rw [call_exactSize_of_exact hexact]
        exact ⟨hholds, id⟩
      · rw [call_exactSize_of_estimate hexact]
        exact ⟨hmaterialize.1, fun _ => hmaterialize.2⟩
  | materialize => exact ⟨hmaterialize.1, fun _ => hmaterialize.2⟩
  | hostRead offset size =>
      simp only [CompressedSource.call]
      by_cases hoffset : offset ≤ content.length
      · obtain ⟨owned, later, hlater, hafter, hexact⟩ :=
          hholds.hostRead size hoffset
        rw [hlater]
        exact ⟨hafter, fun _ => hexact⟩
      · obtain ⟨later, hlater, hafter, hexact⟩ :=
          hholds.hostRead_outside size (Nat.lt_of_not_le hoffset)
        rw [hlater]
        exact ⟨hafter, fun _ => hexact⟩

/-- Whatever is called, what the source knows is true and its size stays
exact. -/
theorem Holds.after (hholds : source.Holds content) (calls : List Call) :
    (source.after calls).Holds content ∧
      (source.exact = true → (source.after calls).exact = true) := by
  induction calls generalizing source with
  | nil => exact ⟨hholds, id⟩
  | cons next rest ih =>
      obtain ⟨hnext, hexact⟩ := hholds.call next
      obtain ⟨hlater, hexact'⟩ := ih hnext
      exact ⟨hlater, fun hbefore => hexact' (hexact hbefore)⟩

/-! ## Answers -/

theorem Holds.call_materialize (hholds : source.Holds content) :
    (source.call .materialize).1 = .count (.ok content.length) := by
  obtain ⟨later, hlater, -, -⟩ := hholds.materialize
  simp only [CompressedSource.call, hlater]

theorem Holds.call_exactSize (hholds : source.Holds content) :
    (source.call .exactSize).1 = .count (.ok content.length) := by
  by_cases hexact : source.exact = true
  · rw [call_exactSize_of_exact hexact, hholds.exactSize hexact]
  · rw [call_exactSize_of_estimate hexact, hholds.call_materialize]

theorem Holds.call_hostRead (hholds : source.Holds content) {offset : Nat}
    (size : Nat) (hoffset : offset ≤ content.length) :
    ∃ owned, (source.call (.hostRead offset size)).1 =
      .read (.ok ⟨(content.drop offset).take
        (min size (content.length - offset)), owned⟩) := by
  obtain ⟨owned, later, hlater, -, -⟩ := hholds.hostRead size hoffset
  refine ⟨owned, ?_⟩
  simp only [CompressedSource.call, hlater]
  rw [← List.length_drop, ← List.take_eq_take_min]

theorem Holds.call_hostRead_outside (hholds : source.Holds content)
    {offset : Nat} (size : Nat) (hoffset : content.length < offset) :
    (source.call (.hostRead offset size)).1 =
      .read (.error (.outOfRange offset content.length)) := by
  obtain ⟨later, hlater, -, -⟩ := hholds.hostRead_outside size hoffset
  simp only [CompressedSource.call, hlater]

/-! ## Broken regions -/

/-- A source over a broken region, into which nobody has looked. -/
structure Broken (source : CompressedSource) (failure : Failure) : Prop where
  decompressed : decompress source.kind source.region = .error failure
  estimate : ¬ source.exact = true
  kept : source.kept = none

theorem Broken.call_eq (hbroken : source.Broken failure) (next : Call)
    (hneeds : next.needsContent = true) :
    source.call next = (next.refusal failure, source) := by
  have hmaterialize :
      source.call .materialize = (.count (.error failure), source) := by
    simp only [call, materialize, hbroken.kept, hbroken.decompressed]
  cases next with
  | size => exact absurd hneeds (by decide)
  | isSizeExact => exact absurd hneeds (by decide)
  | exactSize =>
      rw [call_exactSize_of_estimate hbroken.estimate, hmaterialize]
      rfl
  | materialize => exact hmaterialize
  | hostRead offset size =>
      simp only [call, hostRead, hbroken.kept, hbroken.decompressed]
      rfl

theorem Broken.after_eq (hbroken : source.Broken failure)
    (calls : List Call) : source.after calls = source := by
  induction calls with
  | nil => rfl
  | cons next rest ih =>
      have hnext : (source.call next).2 = source := by
        by_cases hneeds : next.needsContent = true
        · rw [hbroken.call_eq next hneeds]
        · cases next with
          | size => rfl
          | isSizeExact => rfl
          | exactSize => exact absurd rfl hneeds
          | materialize => exact absurd rfl hneeds
          | hostRead offset size => exact absurd rfl hneeds
      rw [after_cons, hnext, ih]

theorem broken_make {region : List UInt8} {kind : Compression} {ratio : Nat}
    (hmake : make region kind ratio = .ok source)
    (hfailure : decompress kind region = .error failure) :
    source.Broken failure := by
  rcases make_cases hmake with ⟨-, rfl⟩ | ⟨bytes, hbytes, -⟩
  · exact ⟨hfailure, by simp, rfl⟩
  · rw [hfailure] at hbytes
    exact absurd hbytes nofun

/-- A compressed source behaves as its content, whatever was called before:
reads and sizes are those of the content, an exact size stays exact, and
content that is kept stays.  A source over a broken region that was opened
all the same refuses whatever needs the content and stays as it was. -/
theorem make_after {region : List UInt8} {kind : Compression} {ratio : Nat}
    (hmake : make region kind ratio = .ok source) (calls : List Call) :
    (∀ content, decompress kind region = .ok content →
      (∀ offset size, offset ≤ content.length →
        ∃ owned, ((source.after calls).call (.hostRead offset size)).1 =
          .read (.ok ⟨(content.drop offset).take
            (min size (content.length - offset)), owned⟩)) ∧
      (∀ offset size, content.length < offset →
        ((source.after calls).call (.hostRead offset size)).1 =
          .read (.error (.outOfRange offset content.length))) ∧
      ((source.after calls).call .exactSize).1 =
        .count (.ok content.length) ∧
      ((source.after calls).call .materialize).1 =
        .count (.ok content.length) ∧
      (((source.after calls).call .isSizeExact).1 = .exactness true →
        ∀ later,
          (((source.after calls).after later).call .isSizeExact).1 =
            .exactness true ∧
          (((source.after calls).after later).call .size).1 =
            .size content.length) ∧
      ∀ bytes, (source.after calls).kept = some bytes →
        bytes = content ∧
          ∀ later, ((source.after calls).after later).kept =
            some content) ∧
    ∀ failure, decompress kind region = .error failure →
      source.after calls = source ∧
        ∀ next, next.needsContent = true →
          (source.after calls).call next =
            (next.refusal failure, source) := by
  constructor
  · intro content hcontent
    obtain ⟨hholds, -⟩ := (holds_make hmake hcontent).after calls
    refine ⟨fun _ size hoffset => hholds.call_hostRead size hoffset,
      fun _ size hoffset => hholds.call_hostRead_outside size hoffset,
      hholds.call_exactSize, hholds.call_materialize, ?_, ?_⟩
    · intro hflag later
      have hexact : (source.after calls).exact = true :=
        Answer.exactness.inj hflag
      obtain ⟨hlater, hstays⟩ := hholds.after later
      have hexact' := hstays hexact
      exact ⟨congrArg Answer.exactness hexact',
        congrArg Answer.size (hlater.exactSize hexact')⟩
    · intro bytes hkept
      obtain ⟨rfl, -⟩ := hholds.kept bytes hkept
      refine ⟨rfl, fun later => ?_⟩
      rw [after_of_kept hkept, hkept]
  · intro failure hfailure
    have hbroken := broken_make hmake hfailure
    have hafter := hbroken.after_eq calls
    refine ⟨hafter, fun next hneeds => ?_⟩
    rw [hafter, hbroken.call_eq next hneeds]

/-- The eight bytes `{"a":1}` and a line break, read to their end, behind
their end and then in part. -/
theorem make_after_reads :
    ∃ source owned,
      make [8, 28, 123, 34, 97, 34, 58, 49, 125, 10] .snappy 4 =
          .ok source ∧
        ((source.after [.hostRead 0 8, .hostRead 9 1]).call
            (.hostRead 1 3)).1 =
          .read (.ok ⟨[34, 97, 34], owned⟩) := by
  have hmake :
      make [8, 28, 123, 34, 97, 34, 58, 49, 125, 10] .snappy 4 = .ok _ := rfl
  have hread :=
    ((make_after hmake [.hostRead 0 8, .hostRead 9 1]).1
      [123, 34, 97, 34, 58, 49, 125, 10] rfl).1 1 3 (by decide)
  obtain ⟨owned, hanswer⟩ := hread
  exact ⟨_, owned, hmake, hanswer⟩

end CompressedSource

end JsonIntake
