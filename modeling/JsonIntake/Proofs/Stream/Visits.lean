import JsonIntake.Proofs.Source.Known
import JsonIntake.Proofs.Stream.Ingestion

/-!
# Visiting a source

Whether a copy skips a source, takes a part of it or takes it to its end, it
goes on behind the content of the source, with that many bytes less to take.
Only the delimiter depends on what comes later, and only as long as bytes are
still wanted.  A copy asks a source for its exact size if the range starts
behind the place where it begins, and else believes it, so both sizes come
into the sums, each one behind the exact sizes of the sources in front.
-/

namespace JsonIntake

namespace Source

/-- Every source ends at a word, by its current size and by its content, if
the sources in front of it have their exact sizes. -/
def FitInOrder (position : Nat) : List Source → Prop
  | [] => True
  | source :: rest =>
    position + source.weight < Size.limit ∧
      FitInOrder (position + source.content.length) rest

variable {position sooner : Nat} {source : Source} {sources : List Source}

theorem FitInOrder.in_front (hfit : FitInOrder position sources)
    (hle : sooner ≤ position) : FitInOrder sooner sources := by
  induction sources generalizing position sooner with
  | nil => trivial
  | cons source rest ih =>
      obtain ⟨hhead, hrest⟩ := hfit
      exact ⟨by omega, ih hrest (by omega)⟩

theorem FitInOrder.length_lt (hfit : FitInOrder position sources)
    (hposition : position < Size.limit) :
    position + (sources.map content).flatten.length < Size.limit := by
  induction sources generalizing position with
  | nil => exact hposition
  | cons source rest ih =>
      obtain ⟨hhead, hrest⟩ := hfit
      have hweight : source.content.length ≤ source.weight :=
        Nat.le_max_right _ _
      have hlater := ih hrest (by omega)
      rw [List.map_cons, List.flatten_cons, List.length_append]
      omega

theorem FitInOrder.content_lt (hfit : FitInOrder position sources)
    (hsource : source ∈ sources) : source.content.length < Size.limit := by
  induction sources generalizing position with
  | nil => cases hsource
  | cons first rest ih =>
      obtain ⟨hhead, hrest⟩ := hfit
      rcases List.mem_cons.mp hsource with rfl | hlater
      · have hweight : source.content.length ≤ source.weight :=
          Nat.le_max_right _ _
        omega
      · exact ih hrest hlater

variable {offset size least : Nat} {known : Source}

theorem Opened.copyTo (hopened : source.Opened least) (offset size : Nat)
    (target : Buffer) :
    (source.copyTo offset size target).2.Opened least := by
  unfold Source.copyTo
  split
  · exact hopened
  · exact hopened.read offset size

/-- What an opened source says about its size when it is asked. -/
theorem Opened.askSize_eq_ok (hopened : source.Opened least)
    (hask : askSize offset position source = (.ok size, known)) :
    known.Opened least ∧ known.content = source.content ∧
      size ≤ source.weight ∧
      (position + size ≤ offset → size ≤ source.content.length) ∧
      (offset < position + size →
        offset - position ≤ source.content.length) := by
  unfold askSize at hask
  split at hask
  · have hreadable := hopened.grounded.readable_of_exactSize hask
    obtain ⟨next, hnext, hreads, -⟩ := (hopened.sound hreadable).exactSize
    have hknown : known = source.exactSize.2 := by rw [hask]
    obtain ⟨hsize, hsame⟩ := Prod.mk.inj (hnext.symm.trans hask)
    obtain rfl := Except.ok.inj hsize
    refine ⟨hknown ▸ hopened.sized, hsame ▸ hreads.content_eq,
      Nat.le_max_right _ _, fun _ => Nat.le_refl _, fun _ => by omega⟩
  · obtain ⟨hsize, rfl⟩ := Prod.mk.inj hask
    obtain rfl := Except.ok.inj hsize
    exact ⟨hopened, rfl, Nat.le_max_left _ _, fun _ => by omega,
      fun _ => by omega⟩

/-- A source that is asked behind the place where it begins tells the length
of its content. -/
theorem Sound.askSize_behind (hsound : source.Sound)
    (hbehind : position < offset) :
    ∃ known, askSize offset position source =
      (.ok source.content.length, known) := by
  obtain ⟨known, hknown, -⟩ := hsound.exactSize
  exact ⟨known, by rw [askSize, if_pos hbehind, hknown]⟩

end Source

/-- A buffer behind a source of which `remaining` bytes were wanted from
`start`; `more` tells whether a later source has a size. -/
def Buffer.withPiece (buffer : Buffer) (delimiter : UInt8)
    (start remaining : Nat) (content : List UInt8) (more : Bool) : Buffer :=
  let copied := min remaining (content.length - start)
  let filled := buffer.append ((content.drop start).take remaining)
  if 0 < copied ∧ content.length ≤ start + copied ∧
      0 < remaining - copied ∧ more = true then
    filled.push delimiter
  else filled

@[simp] theorem Buffer.append_nil (buffer : Buffer) :
    buffer.append [] = buffer := rfl

theorem Buffer.withPiece_of_length_le {buffer : Buffer} {delimiter : UInt8}
    {start remaining : Nat} {content : List UInt8} {more : Bool}
    (hbehind : content.length ≤ start) :
    buffer.withPiece delimiter start remaining content more = buffer := by
  have hcopied : min remaining (content.length - start) = 0 := by omega
  simp [withPiece, hcopied, List.drop_eq_nil_of_le hbehind]

/-- Later sources do not matter once no more bytes are wanted. -/
theorem Buffer.withPiece_congr (buffer : Buffer) (delimiter : UInt8)
    {start remaining : Nat} {content : List UInt8} {more again : Bool}
    (hmore : 0 < remaining - min remaining (content.length - start) →
      more = again) :
    buffer.withPiece delimiter start remaining content more =
      buffer.withPiece delimiter start remaining content again := by
  by_cases hwanted : 0 < remaining - min remaining (content.length - start)
  · rw [hmore hwanted]
  · unfold withPiece
    rw [if_neg (fun h => hwanted h.2.2.1), if_neg (fun h => hwanted h.2.2.1)]

/-- Whether a source that can be read is skipped or copied from, the copy goes
on behind its content. -/
theorem ingestFrom_visit {offset position remaining : Nat} {source : Source}
    (delimiter : UInt8) (buffer : Buffer)
    (hgo : ¬ (remaining = 0 ∧ offset ≤ position))
    (hopened : source.Opened 1) (hsound : source.Sound)
    (hword : position + source.weight < Size.limit) :
    ∃ known, known.Opened 1 ∧ source.Reads known ∧ ∀ rest,
      ingestFrom offset delimiter position remaining buffer (source :: rest) =
        (ingestFrom offset delimiter (position + source.content.length)
          (remaining -
            min remaining (source.content.length - (offset - position)))
          (buffer.withPiece delimiter (offset - position) remaining
            source.content (rest.any fun later => 0 < later.size))
          rest).after known := by
  have hweight : source.content.length ≤ source.weight :=
    Nat.le_max_right _ _
  obtain ⟨size, known, hsize, hreads, hle, hskip, hreach⟩ :=
    askSize_of_sound offset position hsound
      (hopened.visible_of_pos (by decide))
  have hknown := (hopened.askSize_eq_ok hsize).1
  have hend : position + size < Size.limit := by omega
  by_cases hbehind : position + size ≤ offset
  · obtain ⟨rfl, -⟩ := hskip hbehind
    have hnone :
        min remaining (source.content.length - (offset - position)) = 0 := by
      omega
    refine ⟨known, hknown, hreads, ?_⟩
    intro rest
    rw [ingestFrom_skip hgo hsize hend hbehind, hnone, Nat.sub_zero,
      Buffer.withPiece_of_length_le (by omega)]
  · have hinside : offset - position ≤ known.content.length := by
      rw [hreads.content_eq]
      exact hreach (by omega)
    obtain ⟨after, hafter, hcopied, hexact⟩ :=
      hreads.sound.copyTo remaining buffer hinside
    have hopenedAfter := hknown.copyTo (offset - position) remaining buffer
    rw [hafter] at hopenedAfter
    rw [hreads.content_eq] at hafter
    have hall := hreads.trans hcopied
    have hlength : after.size = source.content.length := by
      rw [hall.sound.size_eq hexact, hall.content_eq]
    refine ⟨after, hopenedAfter, hall, ?_⟩
    intro rest
    rw [ingestFrom_copy hgo hsize hend (Nat.lt_of_not_le hbehind) hafter
      (by omega), hlength]
    rfl

end JsonIntake
