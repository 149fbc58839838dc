import JsonIntake.Proofs.Stream.Boundary
import JsonIntake.Proofs.Stream.Exact
import JsonIntake.Proofs.Stream.Fragments

/-!
# What the search for a boundary reads

The search for the last boundary of a window needs no more than the source ends
and the bytes behind the last one of them in the window.  If there are any,
they are one stretch of one source, which is copied into the scratch buffer
whose turn it is.  No other source and no other buffer has a bearing on the
answer, and none is changed.
-/

namespace JsonIntake

variable {delimiter : UInt8} {ends : List Nat}
  {low high start size count : Nat}

namespace BufferPool

/-- The pool once the buffer whose turn it was has been filled. -/
def filled (pool : BufferPool) (buffer : Buffer) : BufferPool :=
  { buffers := pool.buffers.setIfInBounds pool.next buffer
    next := (pool.next + 1) % pool.size }

theorem advance_filled (pool : BufferPool) (buffer : Buffer) :
    { pool.advance.2 with
      buffers := pool.advance.2.buffers.setIfInBounds pool.advance.1 buffer } =
        pool.filled buffer := by
  rw [filled, mk.injEq]
  refine ⟨?_, rfl⟩
  apply Array.ext_getElem?
  intro place
  by_cases hnext : pool.next = place <;>
    simp [advance, Array.getElem?_setIfInBounds, Array.getElem?_modify, hnext]

end BufferPool

/-- The last source end of a window. -/
def sourceEndIn? (ends : List Nat) (low high : Nat) : Option Nat :=
  (ends.filter fun stop => low < stop && stop ≤ high).max?

/-- Where the bytes of a window begin that have to be searched. -/
def searchFrom (ends : List Nat) (low high : Nat) : Nat :=
  (sourceEndIn? ends low high).getD low

/-- What a search reads to come to its answer, and all that it changes: nothing
if the window ends with a source, or else a stretch of one source. -/
inductive AnswersFrom (set : SourceSet) (ends : List Nat) (delimiter : UInt8)
    (low high : Nat) (answer : Option Nat) : Prop
  | ends
      (hstart : searchFrom ends low high = high)
      (hsearch : ∀ other pool,
        Probe.lastBoundary ⟨other, pool⟩ ends low high delimiter =
          (.ok answer, ⟨other, pool⟩))
  | stretch {part : Fragment} {source next : Source} {buffer : Buffer}
      (hspan : part.span set.sizes =
        .between (searchFrom ends low high) high)
      (hsource : set.sources[part.source]? = some source)
      (hinside : part.range.offset + part.range.size ≤ source.size)
      (hcopy : source.copyTo part.range.offset part.range.size .empty =
        (.ok (part.range.size, buffer), next))
      (hsize : buffer.size = high - searchFrom ends low high)
      (hsearch : ∀ (other : SourceSet) (pool : BufferPool),
        other.sources[part.source]? = some source →
        Probe.lastBoundary ⟨other, pool⟩ ends low high delimiter =
          (.ok answer,
            ⟨{ other with sources := other.sources.set part.source next },
              pool.filled buffer⟩))

namespace Probe

theorem stage_of_copyTo {set : SourceSet} {source next : Source}
    {buffer : Buffer} (pool : BufferPool)
    (hsource : set.sources[(locate ends start).1]? = some source)
    (hcopy : source.copyTo (locate ends start).2 size .empty =
      (.ok (count, buffer), next)) :
    Probe.stage ⟨set, pool⟩ ends start size =
      (.ok buffer,
        ⟨{ set with
            sources := set.sources.set (locate ends start).1 next },
          pool.filled buffer⟩) := by
  simp only [stage, SourceSet.copyTo, hsource, pool.get_advance, hcopy,
    Except.map, pool.advance_filled]

theorem lastBoundary_of_stage {probe next : Probe} {buffer : Buffer}
    (hlt : searchFrom ends low high < high)
    (hword : searchFrom ends low high + buffer.size < Size.limit)
    (hstage : probe.stage ends (searchFrom ends low high)
      (high - searchFrom ends low high) = (.ok buffer, next)) :
    probe.lastBoundary ends low high delimiter =
      (.ok ((lastDelimiterEnd? delimiter buffer.toList).elim
          (sourceEndIn? ends low high)
          fun length => some (searchFrom ends low high + length)), next) := by
  unfold searchFrom sourceEndIn? at *
  simp only [lastBoundary, if_pos hlt, hstage]
  cases hlength : lastDelimiterEnd? delimiter buffer.toList with
  | none => rfl
  | some length =>
      have hle := lastDelimiterEnd?_le hlength
      rw [Buffer.length_toList] at hle
      have hcut := Size.add?_of_lt
        (Nat.lt_of_le_of_lt (Nat.add_le_add_left hle _) hword)
      simp only [hcut, Option.elim_some]

theorem lastBoundary_of_ends (probe : Probe)
    (hstart : ¬ searchFrom ends low high < high) :
    probe.lastBoundary ends low high delimiter =
      (.ok (sourceEndIn? ends low high), probe) := by
  unfold searchFrom sourceEndIn? at *
  simp only [lastBoundary, if_neg hstart]

end Probe

theorem AnswersFrom.search {set : SourceSet} {answer : Option Nat}
    (hanswers : AnswersFrom set ends delimiter low high answer)
    (pool : BufferPool) :
    (Probe.lastBoundary ⟨set, pool⟩ ends low high delimiter).1 =
      .ok answer := by
  cases hanswers with
  | ends _ hsearch => rw [hsearch]
  | stretch _ hsource _ _ _ hsearch => rw [hsearch set pool hsource]

namespace SourceSet

variable {set : SourceSet}

/-- A stretch of the stream that ends in front of the next source end lies in
one source, which has it in full. -/
theorem Sound.exists_stretch (hsound : set.Sound) (hexact : set.Exact)
    (hstart : start < high) (hhigh : high ≤ set.contents.flatten.length)
    (hends : set.ends = .ok ends)
    (hbehind : ∀ stop ∈ ends, start < stop → high < stop) :
    ∃ (source next : Source) (buffer : Buffer),
      set.sources[(locate ends start).1]? = some source ∧
      (sourceSpan set.sizes (locate ends start).1).offset +
        (locate ends start).2 = start ∧
      (locate ends start).2 + (high - start) ≤ source.size ∧
      source.copyTo (locate ends start).2 (high - start) .empty =
        (.ok (high - start, buffer), next) ∧
      buffer.size = high - start := by
  obtain rfl := Except.ok.inj (hends.symm.trans (hsound.ends_eq hexact))
  obtain ⟨content, later, hlocated⟩ :=
    exists_located set.contents (Nat.zero_le start) (by omega)
  dsimp only [locate]
  generalize ((contentEnds 0 set.contents).takeWhile
    fun stop => stop ≤ start) = before at hlocated ⊢
  have hbase := hlocated.base_le
  have hlast :=
    hbehind _ (List.mem_of_getElem? hlocated.stop) hlocated.position_lt
  have hstop := getElem?_contentEnds 0 hlocated.found
  rw [hlocated.stop, Option.some.injEq, Nat.zero_add] at hstop
  obtain ⟨source, hsource, rfl⟩ :=
    Option.map_eq_some_iff.mp (List.getElem?_map.symm.trans hlocated.found)
  have hmem : source ∈ set.sources := List.mem_of_getElem? hsource
  have hsize := (hsound.sources source hmem).size_eq (hexact source hmem)
  have hoffset : start - before.getLast?.getD 0 ≤ source.content.length := by
    omega
  obtain ⟨next, hcopy, -, -⟩ :=
    (hsound.sources source hmem).copyTo (high - start) .empty hoffset
  have hcount : min (high - start)
      (source.content.length - (start - before.getLast?.getD 0)) =
        high - start := by omega
  rw [hcount] at hcopy
  refine ⟨source, next, _, hsource, ?_, by omega, hcopy, ?_⟩
  · rw [sourceSpan, hsound.sizes_eq hexact]
    dsimp only
    omega
  · rw [← Buffer.length_toList, Buffer.toList_append, Buffer.toList_empty,
      List.nil_append, List.length_take, List.length_drop, hcount]

/-- The search of a window always has an answer, and what it reads for it is
in the window and behind its last source end. -/
theorem Sound.exists_answersFrom (hsound : set.Sound) (hexact : set.Exact)
    (hends : set.ends = .ok ends) (delimiter : UInt8) (hlow : low ≤ high)
    (hhigh : high ≤ set.contents.flatten.length) :
    ∃ answer, AnswersFrom set ends delimiter low high answer := by
  have hsearch := isSearchStart_max? set.contents hlow
  have hknown := Except.ok.inj (hends.symm.trans (hsound.ends_eq hexact))
  have hlast := hsearch.last
  rw [← hknown] at hsearch hlast
  by_cases hstart : searchFrom ends low high < high
  · obtain ⟨source, next, buffer, hsource, hplace, hinside, hcopy, hsize⟩ :=
      hsound.exists_stretch hexact hstart hhigh hends hlast
    have hword : searchFrom ends low high + buffer.size < Size.limit := by
      have hlength := hsound.length_lt
      omega
    let part : Fragment :=
      ⟨(locate ends (searchFrom ends low high)).1,
        (locate ends (searchFrom ends low high)).2,
        high - searchFrom ends low high⟩
    have hspan : part.span set.sizes =
        .between (searchFrom ends low high) high := by
      rw [Fragment.span, hplace, ByteRange.between]
    exact ⟨_, .stretch hspan hsource hinside hcopy hsize
      fun other pool hother =>
        Probe.lastBoundary_of_stage hstart hword
          (Probe.stage_of_copyTo pool hother hcopy)⟩
  · exact ⟨_, .ends (Nat.le_antisymm hsearch.le_high (Nat.le_of_not_lt hstart))
      fun other pool => Probe.lastBoundary_of_ends ⟨other, pool⟩ hstart⟩

/-- A search answers with the last boundary of its window, and with nothing
exactly if there is none; the pool has no bearing on that.  It always answers,
and reads one stretch of one source at most.  Only sources that fit a word
together have ends. -/
theorem lastBoundary_exact (set : SourceSet)
    (hopened : ∀ source ∈ set.sources, source.Opened 0)
    (hexact : set.Exact)
    (hlength : set.contents.flatten.length < Size.limit)
    (delimiter : UInt8) (hlow : low ≤ high)
    (hhigh : high ≤ set.contents.flatten.length) :
    ∃ ends, set.ends = .ok ends ∧
      (∀ pool answer,
        (Probe.lastBoundary ⟨set, pool⟩ ends low high delimiter).1 =
            .ok answer ↔
          IsLastBoundary delimiter set.contents low high answer) ∧
      ∃ answer, AnswersFrom set ends delimiter low high answer := by
  have hsound := hexact.sound hopened hlength
  have hends := hsound.ends_eq hexact
  obtain ⟨answer, hanswers⟩ :=
    hsound.exists_answersFrom hexact hends delimiter hlow hhigh
  refine ⟨_, hends, fun pool other => ?_, answer, hanswers⟩
  have hprobe : (⟨set, pool⟩ : Probe).set.Sound := hsound
  obtain ⟨found, next, hfound, hlast, -⟩ :=
    Probe.lastBoundary_of_sound hprobe delimiter hlow hhigh
  rw [hfound, Except.ok.injEq]
  constructor
  · rintro rfl
    exact hlast
  · exact hlast.unique

/-- Two sources end where the search begins, and the window ends inside the
third one. -/
theorem lastBoundary_exact_empty_source :
    let set : SourceSet :=
      ⟨[.host [123, 125, 10], .device .empty,
        .host [123, 34, 97, 34, 58, 49, 125, 10, 91, 93]], .none⟩
    let pool : BufferPool := ⟨#[.empty, .ofList [10]], 1⟩
    IsLastBoundary 10 set.contents 1 12 (some 11) ∧
      set.ends = .ok [3, 3, 13] ∧
      (Probe.lastBoundary ⟨set, pool⟩ [3, 3, 13] 1 12 10).1 = .ok (some 11) ∧
      AnswersFrom set [3, 3, 13] 10 1 12 (some 11) := by
  intro set pool
  have hlast : IsLastBoundary 10 set.contents 1 12 (some 11) := by
    refine ⟨by decide, by decide, by decide, fun position hlow hhigh => ?_⟩
    obtain rfl : position = 12 := by omega
    decide
  obtain ⟨ends, hends, hanswer, answer, hanswers⟩ := lastBoundary_exact set
    (by
      rintro source (_ | ⟨_, _ | ⟨_, _ | ⟨_, ⟨⟩⟩⟩⟩)
      · exact .host _
      · exact .device _
      · exact .host _)
    (by rintro source (_ | ⟨_, _ | ⟨_, _ | ⟨_, ⟨⟩⟩⟩⟩) <;> rfl)
    (by decide) 10 (by decide : 1 ≤ 12) (by decide)
  obtain rfl : [3, 3, 13] = ends := Except.ok.inj hends
  have hfound := (hanswer pool (some 11)).mpr hlast
  have hsame := (hanswers.search pool).symm.trans hfound
  rw [Except.ok.injEq] at hsame
  subst hsame
  exact ⟨hlast, hends, hfound, hanswers⟩

end SourceSet

end JsonIntake
