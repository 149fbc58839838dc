import JsonIntake.Proofs.Stream.Visits

/-!
# A copy leaves later sources alone

A copy whose range ends within the first sources does not depend on what comes
behind them, and leaves it as it is.  There are two places where it could look
further.  It visits no source once the range is behind it, and until then
there is content left among the first sources.  Behind a source that it has
copied it asks whether any later source has a size.  As long as bytes are
wanted there is one among the first sources already, since no estimate is zero
by mistake.
-/

namespace JsonIntake

/-- A copy that comes to an end within some sources, whatever follows them. -/
def StaysWithin (offset : Nat) (delimiter : UInt8) (position remaining : Nat)
    (buffer : Buffer) (first : List Source) : Prop :=
  ∃ reached filled known, offset ≤ reached ∧ Source.AllRead first known ∧
    ∀ later,
      ingestFrom offset delimiter position remaining buffer (first ++ later) =
        ⟨.ok reached, filled, known ++ later⟩

section Copies

variable {offset position remaining : Nat} {delimiter : UInt8}
  {buffer : Buffer} {first : List Source}

theorem staysWithin_stop (hsound : ∀ source ∈ first, source.Sound)
    (hstop : remaining = 0 ∧ offset ≤ position) :
    StaysWithin offset delimiter position remaining buffer first := by
  refine ⟨position, buffer, first, hstop.2, Source.allRead_refl hsound, ?_⟩
  intro later
  cases hall : first ++ later with
  | nil => rw [ingestFrom]
  | cons source rest => exact ingestFrom_stop hstop

theorem any_size_append (hvisible : ∀ source ∈ first, source.Visible)
    (hcontent : 0 < (first.map Source.content).flatten.length)
    (later : List Source) :
    ((first ++ later).any fun source => 0 < source.size) = true := by
  rw [List.any_append, Bool.or_eq_true]
  left
  by_contra hnone
  have hempty := any_size_of_visible hvisible hnone
  rw [List.flatten_eq_nil_iff.mpr hempty] at hcontent
  simp at hcontent

theorem ingestFrom_staysWithin
    (hopened : ∀ source ∈ first, source.Opened 1)
    (hsound : ∀ source ∈ first, source.Sound)
    (hfit : Source.FitInOrder position first)
    (hend : offset - position + remaining ≤
      (first.map Source.content).flatten.length) :
    StaysWithin offset delimiter position remaining buffer first := by
  induction first generalizing position remaining buffer with
  | nil =>
      apply staysWithin_stop hsound
      simp only [List.map_nil, List.flatten_nil, List.length_nil] at hend
      omega
  | cons source rest ih =>
      by_cases hstop : remaining = 0 ∧ offset ≤ position
      · exact staysWithin_stop hsound hstop
      rw [List.forall_mem_cons] at hopened hsound
      rw [List.map_cons, List.flatten_cons, List.length_append] at hend
      obtain ⟨hword, hrest⟩ := hfit
      obtain ⟨known, -, hreads, hvisit⟩ :=
        ingestFrom_visit delimiter buffer hstop hopened.1 hsound.1 hword
      -- If bytes are still wanted, there is content for them in `rest`.
      have hpiece : ∀ later,
          buffer.withPiece delimiter (offset - position) remaining
              source.content
              ((rest ++ later).any fun source => 0 < source.size) =
            buffer.withPiece delimiter (offset - position) remaining
              source.content true := by
        intro later
        apply Buffer.withPiece_congr
        intro hwanted
        apply any_size_append _ (by omega)
        intro source hsource
        exact (hopened.2 source hsource).visible_of_pos (by decide)
      have hwithin : StaysWithin offset delimiter
          (position + source.content.length)
          (remaining -
            min remaining (source.content.length - (offset - position)))
          (buffer.withPiece delimiter (offset - position) remaining
            source.content true) rest :=
        ih hopened.2 hsound.2 hrest (by omega)
      obtain ⟨reached, filled, visited, hreached, hvisited, hcopy⟩ := hwithin
      refine ⟨reached, filled, known :: visited, hreached,
        .cons hreads hvisited, ?_⟩
      intro later
      rw [List.cons_append, hvisit, hpiece, hcopy]
      rfl

end Copies

/-- If a range ends within the first sources, its bytes and what becomes of
those sources are the same whatever sources follow, and these stay as they
are. -/
theorem ingest_append (first : List Source) (range : ByteRange)
    (hopened : ∀ source ∈ first, source.Opened 1)
    (hreadable : ∀ source ∈ first, source.Readable)
    (hfit : Source.FitInOrder 0 first)
    (hend : range.offset + range.size ≤
      (first.map Source.content).flatten.length)
    (buffer : Buffer) (delimiter : UInt8) :
    ∃ filled known, Source.AllRead first known ∧
      ∀ later compression,
        ingest buffer ⟨first ++ later, compression⟩ range delimiter =
          ⟨.ok filled.size, filled, ⟨known ++ later, compression⟩⟩ := by
  have hwithin :
      StaysWithin range.offset delimiter 0 range.size buffer.clear first :=
    ingestFrom_staysWithin hopened
      (fun source hsource =>
        (hopened source hsource).sound (hreadable source hsource))
      hfit (by omega)
  obtain ⟨reached, filled, known, hreached, hknown, hcopy⟩ := hwithin
  refine ⟨filled, known, hknown, ?_⟩
  intro later compression
  simp only [ingest, hcopy, if_neg (Nat.not_lt_of_le hreached)]

/-- The range ends with a region whose estimate is too large.  Behind it there
may be nothing, or a region that is broken. -/
theorem ingest_append_broken :
    let first : List Source :=
      [.host [123, 34, 98, 34, 58, 50, 125],
        .compressed ⟨[8, 28, 123, 34, 97, 34, 58, 49, 125, 10], .snappy, 40,
          false, none⟩]
    let broken : Source := .compressed ⟨[255, 0], .snappy, 8, false, none⟩
    CompressedSource.make [255, 0] .snappy 4 =
        .ok ⟨[255, 0], .snappy, 8, false, none⟩ ∧
      ¬ broken.Readable ∧
      ∃ filled known, Source.AllRead first known ∧
        ingest .empty ⟨first, .none⟩ ⟨2, 13⟩ 10 =
          ⟨.ok filled.size, filled, ⟨known, .none⟩⟩ ∧
        ingest .empty ⟨first ++ [broken], .none⟩ ⟨2, 13⟩ 10 =
          ⟨.ok filled.size, filled, ⟨known ++ [broken], .none⟩⟩ := by
  have hmake : CompressedSource.make
      [8, 28, 123, 34, 97, 34, 58, 49, 125, 10] .snappy 4 = .ok _ := rfl
  obtain ⟨filled, known, hknown, hcopy⟩ := ingest_append
    [.host [123, 34, 98, 34, 58, 50, 125],
      .compressed ⟨[8, 28, 123, 34, 97, 34, 58, 49, 125, 10], .snappy, 40,
        false, none⟩] ⟨2, 13⟩
    (by
      rintro source (_ | ⟨_, _ | ⟨_, ⟨⟩⟩⟩)
      · exact .host _
      · exact .compressed (by decide) hmake)
    (by rintro source (_ | ⟨_, _ | ⟨_, ⟨⟩⟩⟩) <;> rfl)
    ⟨by decide, by decide, trivial⟩ (by decide) .empty 10
  refine ⟨rfl, ?_, filled, known, hknown, ?_, hcopy _ _⟩
  · intro hreadable
    exact nomatch hreadable
  · have halone := hcopy [] .none
    rw [List.append_nil, List.append_nil] at halone
    exact halone

end JsonIntake
