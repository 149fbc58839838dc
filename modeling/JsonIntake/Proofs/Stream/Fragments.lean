import JsonIntake.Proofs.Source.Stream

/-!
# The fragments of a range

A range of the stream falls apart into one fragment for each source that it
overlaps.  In the stream the fragments lie one behind the other, and together
they are what the stream has of the range; a range whose end saturates is no
exception, for the stream ends in front of the largest word.  Where a range is
cut in two, so are its fragments, and only a source in which the cut lies has a
fragment in both parts.
-/

namespace JsonIntake

namespace ByteRange

def Has (range : ByteRange) (position : Nat) : Prop :=
  range.offset ≤ position ∧ position < range.offset + range.size

/-- A range that is cut in two where the first part stops. -/
structure Splits (whole first second : ByteRange) : Prop where
  front : whole.offset = first.offset
  meet : first.stop = second.offset
  back : whole.stop = second.stop
  first_lt : first.offset < Size.limit
  second_lt : second.offset < Size.limit

theorem Splits.first_le {whole first second : ByteRange}
    (hsplits : whole.Splits first second) : first.offset ≤ first.stop := by
  have hword := hsplits.first_lt
  unfold stop Size.addSaturating Size.maximum
  omega

theorem Splits.second_le {whole first second : ByteRange}
    (hsplits : whole.Splits first second) : second.offset ≤ second.stop := by
  have hword := hsplits.second_lt
  unfold stop Size.addSaturating Size.maximum
  omega

theorem has_iff (range : ByteRange) {position : Nat}
    (hposition : position + 1 < Size.limit) :
    range.Has position ↔ range.offset ≤ position ∧ position < range.stop := by
  unfold Has stop Size.addSaturating Size.maximum
  omega

theorem stop_of_lt {start size : Nat} (hfits : start + size < Size.limit) :
    (⟨start, size⟩ : ByteRange).stop = start + size := by
  unfold stop Size.addSaturating Size.maximum
  dsimp only
  omega

end ByteRange

/-- The stretch of the stream that a source takes up. -/
def sourceSpan (sizes : List Nat) (index : Nat) : ByteRange :=
  ⟨(sizes.take index).sum, sizes.getD index 0⟩

/-- The stretch of the stream that a fragment takes up. -/
def Fragment.span (sizes : List Nat) (fragment : Fragment) : ByteRange :=
  ⟨(sourceSpan sizes fragment.source).offset + fragment.range.offset,
    fragment.range.size⟩

/-- The fragments of a range, in full and without overlap. -/
structure IsDecomposition (sizes : List Nat) (range : ByteRange)
    (fragments : List Fragment) : Prop where
  increasing : (fragments.map Fragment.source).Pairwise (· < ·)
  inside : ∀ fragment ∈ fragments, 0 < fragment.range.size ∧
    ∃ size, sizes[fragment.source]? = some size ∧
      fragment.range.offset + fragment.range.size ≤ size
  contiguous : fragments ≠ [] →
    fragments.map (fun fragment => (fragment.span sizes).offset) ++
        [min (range.offset + range.size) sizes.sum] =
      range.offset :: fragments.map fun fragment => (fragment.span sizes).stop
  covers : ∀ position,
    (∃ fragment ∈ fragments, (fragment.span sizes).Has position) ↔
      range.Has position ∧ position < sizes.sum
  complete : ∀ index, index ∈ fragments.map Fragment.source ↔
    ∃ position, (sourceSpan sizes index).Has position ∧ range.Has position

/-- The fragments in front of a cut and behind it, and those of the whole.  If
the cut lies inside a source, two of them are the pieces of one. -/
inductive JoinAt (sizes : List Nat) (cut : Nat) :
    List Fragment → List Fragment → List Fragment → Prop
  | apart {front back : List Fragment}
      (hapart : ∀ one ∈ front, ∀ other ∈ back, one.source < other.source) :
      JoinAt sizes cut front back (front ++ back)
  | within {front back : List Fragment} {source offset before behind : Nat}
      (hbefore : 0 < before) (hbehind : 0 < behind)
      (hcut : (sourceSpan sizes source).offset + offset + before = cut) :
      JoinAt sizes cut (front ++ [⟨source, ⟨offset, before⟩⟩])
        (⟨source, ⟨offset + before, behind⟩⟩ :: back)
        (front ++ ⟨source, ⟨offset, before + behind⟩⟩ :: back)

theorem JoinAt.cons {sizes : List Nat} {cut : Nat} {head : Fragment}
    {front back whole : List Fragment}
    (hjoin : JoinAt sizes cut front back whole)
    (hhead : ∀ other ∈ back, head.source < other.source) :
    JoinAt sizes cut (head :: front) back (head :: whole) := by
  cases hjoin with
  | apart hapart => exact .apart (List.forall_mem_cons.mpr ⟨hhead, hapart⟩)
  | @within front back source offset before behind hbefore hbehind hcut =>
      have hwithin : JoinAt sizes cut
          ((head :: front) ++ [⟨source, ⟨offset, before⟩⟩])
          (⟨source, ⟨offset + before, behind⟩⟩ :: back)
          ((head :: front) ++ ⟨source, ⟨offset, before + behind⟩⟩ :: back) :=
        .within hbefore hbehind hcut
      exact hwithin

/-! ## One source -/

section Overlap

variable {range other : ByteRange} {index start size place position : Nat}
  {sizes before rest : List Nat} {fragment : Fragment}

/-- The fragment of a range in a source that begins at `start`. -/
def overlap? (range : ByteRange) (index start size : Nat) :
    Option Fragment :=
  let first := max start range.offset
  let last := min (start + size) range.stop
  if first < last then some ⟨index, ⟨first - start, last - first⟩⟩ else none

theorem overlap?_eq_some :
    overlap? range index start size = some fragment ↔
      max start range.offset < min (start + size) range.stop ∧
        fragment = ⟨index, ⟨max start range.offset - start,
          min (start + size) range.stop - max start range.offset⟩⟩ := by
  unfold overlap?
  dsimp only
  split
  · next hlt => simp [hlt, eq_comm]
  · next hnone => simp [hnone]

theorem overlap?_eq_none :
    overlap? range index start size = none ↔
      min (start + size) range.stop ≤ max start range.offset := by
  unfold overlap?
  dsimp only
  split
  · next hlt => exact iff_of_false nofun (Nat.not_le_of_lt hlt)
  · next hnone => exact iff_of_true rfl (Nat.le_of_not_lt hnone)

theorem overlap?_congr
    (hfirst : max start range.offset = max start other.offset)
    (hlast : min (start + size) range.stop = min (start + size) other.stop) :
    overlap? range index start size = overlap? other index start size := by
  unfold overlap?
  rw [hfirst, hlast]

theorem span_of_overlap? (hstart : (sourceSpan sizes index).offset = start)
    (hoverlap : overlap? range index start size = some fragment) :
    fragment.span sizes =
      .between (max start range.offset) (min (start + size) range.stop) := by
  obtain ⟨hlt, rfl⟩ := overlap?_eq_some.mp hoverlap
  have hoffset : start + (max start range.offset - start) =
      max start range.offset := by omega
  rw [Fragment.span, hstart, hoffset, ByteRange.between]

theorem joinAt_overlap? {sizes : List Nat} {whole first second : ByteRange}
    {rest : List Fragment}
    (hstart : (sourceSpan sizes index).offset = start)
    (hsplits : whole.Splits first second) (hlow : start < second.offset)
    (hhigh : second.offset < start + size)
    (hrest : ∀ other ∈ rest, index < other.source) :
    JoinAt sizes second.offset (overlap? first index start size).toList
      ((overlap? second index start size).toList ++ rest)
      ((overlap? whole index start size).toList ++ rest) := by
  have hfirst := hsplits.first_le
  have hsecond := hsplits.second_le
  have hfront := hsplits.front
  have hmeet := hsplits.meet
  have hback := hsplits.back
  by_cases hnothing : first.offset = first.stop
  · have hnone : overlap? first index start size = none :=
      overlap?_eq_none.mpr (by omega)
    have hsame : overlap? whole index start size =
        overlap? second index start size :=
      overlap?_congr (by omega) (by omega)
    rw [hnone, hsame]
    exact .apart nofun
  by_cases hend : second.offset = second.stop
  · have hnone : overlap? second index start size = none :=
      overlap?_eq_none.mpr (by omega)
    have hsame : overlap? whole index start size =
        overlap? first index start size :=
      overlap?_congr (by omega) (by omega)
    rw [hnone, hsame]
    refine .apart fun one hone => ?_
    rw [Option.mem_toList] at hone
    obtain ⟨-, rfl⟩ := overlap?_eq_some.mp hone
    exact hrest
  · have hone : overlap? first index start size =
        some ⟨index, ⟨max start first.offset - start,
          second.offset - max start first.offset⟩⟩ :=
      overlap?_eq_some.mpr ⟨by omega, by congr 2; omega⟩
    have hother : overlap? second index start size =
        some ⟨index, ⟨max start first.offset - start +
            (second.offset - max start first.offset),
          min (start + size) second.stop - second.offset⟩⟩ :=
      overlap?_eq_some.mpr ⟨by omega, by congr 2 <;> omega⟩
    have hboth : overlap? whole index start size =
        some ⟨index, ⟨max start first.offset - start,
          second.offset - max start first.offset +
            (min (start + size) second.stop - second.offset)⟩⟩ :=
      overlap?_eq_some.mpr ⟨by omega, by congr 2 <;> omega⟩
    rw [hone, hother, hboth]
    have hcut : (sourceSpan sizes index).offset +
        (max start first.offset - start) +
          (second.offset - max start first.offset) = second.offset := by
      rw [hstart]
      omega
    have hbefore : 0 < second.offset - max start first.offset := by omega
    have hbehind : 0 < min (start + size) second.stop - second.offset := by
      omega
    have hwithin : JoinAt sizes second.offset ([] ++ [_]) (_ :: rest)
        ([] ++ _ :: rest) := .within hbefore hbehind hcut
    exact hwithin

end Overlap

/-! ## All sources -/

namespace SourceSet

section Walk

variable {range other : ByteRange} {index start size place : Nat}
  {sizes before rest : List Nat} {fragment : Fragment}

theorem fragmentsFrom_cons (hfits : start + size < Size.limit) :
    fragmentsFrom range index start (size :: rest) =
      (overlap? range index start size).toList ++
        fragmentsFrom range (index + 1) (start + size) rest := by
  simp only [fragmentsFrom, ByteRange.intersect, overlap?,
    ByteRange.stop_of_lt hfits, ByteRange.between]
  by_cases hlt : max start range.offset < min (start + size) range.stop
  · simp only [if_pos hlt, Option.toList_some, List.singleton_append]
  · simp only [if_neg hlt, Option.toList_none, List.nil_append]

theorem mem_fragmentsFrom (hfits : start + sizes.sum < Size.limit) :
    fragment ∈ fragmentsFrom range index start sizes ↔
      ∃ place size, sizes[place]? = some size ∧
        overlap? range (index + place) (start + (sizes.take place).sum) size =
          some fragment := by
  induction sizes generalizing index start with
  | nil => simp [fragmentsFrom]
  | cons size rest ih =>
      rw [List.sum_cons] at hfits
      have hplace : ∀ place, index + 1 + place = index + (place + 1) :=
        fun place => by omega
      rw [fragmentsFrom_cons (by omega), List.mem_append, Option.mem_toList,
        ih (by omega)]
      constructor
      · rintro (hhead | ⟨place, found, hfound, hoverlap⟩)
        · exact ⟨0, size, rfl, hhead⟩
        · refine ⟨place + 1, found, hfound, ?_⟩
          rwa [List.take_succ_cons, List.sum_cons, ← Nat.add_assoc start,
            ← hplace]
      · rintro ⟨place | place, found, hfound, hoverlap⟩
        · cases hfound
          exact .inl hoverlap
        · refine .inr ⟨place, found, hfound, ?_⟩
          rwa [List.take_succ_cons, List.sum_cons, ← Nat.add_assoc start,
            ← hplace] at hoverlap

theorem le_source_of_mem (hfits : start + sizes.sum < Size.limit)
    (hfragment : fragment ∈ fragmentsFrom range index start sizes) :
    index ≤ fragment.source := by
  obtain ⟨place, size, -, hoverlap⟩ := (mem_fragmentsFrom hfits).mp hfragment
  obtain ⟨-, rfl⟩ := overlap?_eq_some.mp hoverlap
  exact Nat.le_add_right _ _

theorem increasing_fragmentsFrom (hfits : start + sizes.sum < Size.limit) :
    ((fragmentsFrom range index start sizes).map
      Fragment.source).Pairwise (· < ·) := by
  induction sizes generalizing index start with
  | nil => exact .nil
  | cons size rest ih =>
      rw [List.sum_cons] at hfits
      have hrest : ((fragmentsFrom range (index + 1) (start + size) rest).map
          Fragment.source).Pairwise (· < ·) := ih (by omega)
      rw [fragmentsFrom_cons (by omega)]
      cases hoverlap : overlap? range index start size with
      | none => exact hrest
      | some head =>
          obtain ⟨-, rfl⟩ := overlap?_eq_some.mp hoverlap
          refine List.pairwise_cons.mpr ⟨?_, hrest⟩
          intro source hsource
          obtain ⟨later, hlater, rfl⟩ := List.mem_map.mp hsource
          exact le_source_of_mem (by omega) hlater

theorem fragmentsFrom_eq_nil (hfits : start + sizes.sum < Size.limit)
    (hstop : min (start + sizes.sum) range.stop ≤ max start range.offset) :
    fragmentsFrom range index start sizes = [] := by
  induction sizes generalizing index start with
  | nil => rfl
  | cons size rest ih =>
      rw [List.sum_cons] at hfits hstop
      have hhead : overlap? range index start size = none :=
        overlap?_eq_none.mpr (by omega)
      rw [fragmentsFrom_cons (by omega), hhead, ih (by omega) (by omega)]
      rfl

/-- What a range has in front of the sources makes no difference. -/
theorem fragmentsFrom_congr (hfits : start + sizes.sum < Size.limit)
    (hfront : max start range.offset = max start other.offset)
    (hstop : range.stop = other.stop) :
    fragmentsFrom range index start sizes =
      fragmentsFrom other index start sizes := by
  induction sizes generalizing index start with
  | nil => rfl
  | cons size rest ih =>
      rw [List.sum_cons] at hfits
      have hhead : overlap? range index start size =
          overlap? other index start size :=
        overlap?_congr hfront (by omega)
      rw [fragmentsFrom_cons (by omega), fragmentsFrom_cons (by omega), hhead,
        ih (by omega) (by omega)]

theorem offset_sourceSpan (before rest : List Nat) :
    (sourceSpan (before ++ rest) before.length).offset = before.sum := by
  rw [sourceSpan, List.take_left]

theorem contiguous_fragmentsFrom (before : List Nat)
    (hsizes : before ++ rest = sizes)
    (hfits : sizes.sum < Size.limit)
    (hlt : max before.sum range.offset < min sizes.sum range.stop) :
    (fragmentsFrom range before.length before.sum rest).map
          (fun fragment => (fragment.span sizes).offset) ++
        [min sizes.sum range.stop] =
      max before.sum range.offset ::
        (fragmentsFrom range before.length before.sum rest).map
          fun fragment => (fragment.span sizes).stop := by
  induction rest generalizing before with
  | nil =>
      rw [List.append_nil] at hsizes
      subst hsizes
      omega
  | cons size rest ih =>
      have htotal : sizes.sum = before.sum + (size + rest.sum) := by
        rw [← hsizes, List.sum_append, List.sum_cons]
      have hspan : (sourceSpan sizes before.length).offset = before.sum :=
        hsizes ▸ offset_sourceSpan before (size :: rest)
      have hlater := ih (before ++ [size]) (by rw [← hsizes]; simp)
      rw [List.length_append, List.sum_append, List.length_singleton,
        List.sum_singleton] at hlater
      rw [fragmentsFrom_cons (by omega)]
      cases hoverlap : overlap? range before.length before.sum size with
      | none =>
          have hnone := overlap?_eq_none.mp hoverlap
          have hfront : max before.sum range.offset =
              max (before.sum + size) range.offset := by omega
          rw [hfront] at hlt ⊢
          exact hlater hlt
      | some head =>
          obtain ⟨hhead, -⟩ := overlap?_eq_some.mp hoverlap
          have hbetween := span_of_overlap? hspan hoverlap
          have hoffset : (head.span sizes).offset =
              max before.sum range.offset := by
            rw [hbetween, ByteRange.between]
          have hend : (head.span sizes).stop =
              min (before.sum + size) range.stop := by
            rw [hbetween, ByteRange.between, ByteRange.stop_of_lt (by omega)]
            omega
          rw [Option.toList_some, List.singleton_append, List.map_cons,
            List.map_cons, List.cons_append, hoffset, hend, List.cons.injEq]
          refine ⟨rfl, ?_⟩
          by_cases hlast : min sizes.sum range.stop ≤ before.sum + size
          · -- The range ends with this source.
            have hnone : fragmentsFrom range (before.length + 1)
                (before.sum + size) rest = [] :=
              fragmentsFrom_eq_nil (by omega) (by omega)
            have hstop : min sizes.sum range.stop =
                min (before.sum + size) range.stop := by omega
            rw [hnone, hstop]
            rfl
          · have hfront : min (before.sum + size) range.stop =
                max (before.sum + size) range.offset := by omega
            rw [hfront]
            exact hlater (by omega)

end Walk

theorem le_sum_of_getElem? {sizes : List Nat} {index size : Nat}
    (hsize : sizes[index]? = some size) :
    (sourceSpan sizes index).offset + size ≤ sizes.sum := by
  have hsplit := congrArg List.sum (List.take_append_drop index sizes)
  rw [List.sum_append, List.drop_eq_getElem?_toList_append, hsize] at hsplit
  rw [← hsplit, sourceSpan]
  simp

theorem size_sourceSpan {sizes : List Nat} {index size : Nat}
    (hsize : sizes[index]? = some size) :
    (sourceSpan sizes index).size = size := by
  rw [sourceSpan, List.getD_eq_getElem?_getD, hsize, Option.getD_some]

theorem getElem?_of_has {sizes : List Nat} {index position : Nat}
    (hposition : (sourceSpan sizes index).Has position) :
    ∃ size, sizes[index]? = some size ∧
      (sourceSpan sizes index).offset ≤ position ∧
      position < (sourceSpan sizes index).offset + size := by
  obtain ⟨hfirst, hlast⟩ := hposition
  cases hsize : sizes[index]? with
  | none =>
      rw [sourceSpan, List.getD_eq_getElem?_getD, hsize] at hfirst hlast
      exact absurd hlast (Nat.not_lt_of_le hfirst)
  | some size =>
      rw [size_sourceSpan hsize] at hlast
      exact ⟨size, rfl, hfirst, hlast⟩

theorem exists_sourceSpan {sizes : List Nat} {position : Nat}
    (hposition : position < sizes.sum) :
    ∃ index, (sourceSpan sizes index).Has position := by
  induction sizes generalizing position with
  | nil => exact absurd hposition (Nat.not_lt_zero _)
  | cons size rest ih =>
      rw [List.sum_cons] at hposition
      by_cases hhead : position < size
      · exact ⟨0, Nat.zero_le _, by simpa [sourceSpan] using hhead⟩
      · have hrest : position - size < rest.sum := by omega
        obtain ⟨index, hfirst, hlast⟩ := ih hrest
        refine ⟨index + 1, ?_⟩
        simp only [sourceSpan, ByteRange.Has, List.take_succ_cons,
          List.sum_cons, List.getD_cons_succ] at hfirst hlast ⊢
        omega

variable {set : SourceSet} {range : ByteRange} {fragment : Fragment}
  {index position : Nat}

theorem mem_fragments (hsizes : set.sizes.sum < Size.limit) :
    fragment ∈ set.fragments range ↔
      ∃ size, set.sizes[fragment.source]? = some size ∧
        overlap? range fragment.source
          (sourceSpan set.sizes fragment.source).offset size =
            some fragment := by
  rw [fragments, mem_fragmentsFrom (by omega)]
  constructor
  · rintro ⟨place, size, hsize, hoverlap⟩
    rw [Nat.zero_add, Nat.zero_add] at hoverlap
    obtain ⟨-, rfl⟩ := overlap?_eq_some.mp hoverlap
    exact ⟨size, hsize, hoverlap⟩
  · rintro ⟨size, hsize, hoverlap⟩
    refine ⟨fragment.source, size, hsize, ?_⟩
    rwa [Nat.zero_add, Nat.zero_add]

/-- A fragment has what its source and the range have in common. -/
theorem has_span_iff (hsizes : set.sizes.sum < Size.limit)
    (hfragment : fragment ∈ set.fragments range) :
    (fragment.span set.sizes).Has position ↔
      (sourceSpan set.sizes fragment.source).Has position ∧
        range.Has position := by
  obtain ⟨size, hsize, hoverlap⟩ := (mem_fragments hsizes).mp hfragment
  obtain ⟨hlt, -⟩ := overlap?_eq_some.mp hoverlap
  have hbound := le_sum_of_getElem? hsize
  have hspan := size_sourceSpan hsize
  rw [span_of_overlap? rfl hoverlap]
  unfold ByteRange.Has ByteRange.between
  unfold ByteRange.stop Size.addSaturating Size.maximum at *
  dsimp only
  omega

theorem exists_fragment (hsizes : set.sizes.sum < Size.limit)
    (hsource : (sourceSpan set.sizes index).Has position)
    (hrange : range.Has position) :
    ∃ fragment ∈ set.fragments range, fragment.source = index := by
  obtain ⟨size, hsize, hfirst, hlast⟩ := getElem?_of_has hsource
  have hbound := le_sum_of_getElem? hsize
  rw [range.has_iff (by omega)] at hrange
  obtain ⟨fragment, hoverlap⟩ : ∃ fragment, overlap? range index
      (sourceSpan set.sizes index).offset size = some fragment :=
    ⟨_, overlap?_eq_some.mpr ⟨by omega, rfl⟩⟩
  obtain ⟨-, hvalue⟩ := overlap?_eq_some.mp hoverlap
  have hindex : fragment.source = index := congrArg Fragment.source hvalue
  subst hindex
  exact ⟨fragment, (mem_fragments hsizes).mpr ⟨size, hsize, hoverlap⟩, rfl⟩

theorem isDecomposition_fragments (hsizes : set.sizes.sum < Size.limit)
    (range : ByteRange) :
    IsDecomposition set.sizes range (set.fragments range) where
  increasing := increasing_fragmentsFrom (by omega)
  inside := by
    intro fragment hfragment
    obtain ⟨size, hsize, hoverlap⟩ := (mem_fragments hsizes).mp hfragment
    obtain ⟨hlt, hvalue⟩ := overlap?_eq_some.mp hoverlap
    rw [hvalue] at hsize ⊢
    dsimp only at hsize ⊢
    exact ⟨by omega, size, hsize, by omega⟩
  contiguous := by
    intro hsome
    have hlt : max 0 range.offset < min (0 + set.sizes.sum) range.stop :=
      Nat.lt_of_not_le fun hle =>
        hsome (fragmentsFrom_eq_nil (by omega) hle)
    have hstop : min (range.offset + range.size) set.sizes.sum =
        min set.sizes.sum range.stop := by
      unfold ByteRange.stop Size.addSaturating Size.maximum
      omega
    rw [Nat.zero_add] at hlt
    have hwalk := contiguous_fragmentsFrom [] (List.nil_append set.sizes)
      hsizes hlt
    rw [hstop]
    rwa [List.sum_nil, Nat.zero_max] at hwalk
  covers := by
    intro position
    constructor
    · rintro ⟨fragment, hfragment, hhas⟩
      obtain ⟨hsource, hrange⟩ := (has_span_iff hsizes hfragment).mp hhas
      obtain ⟨size, hsize, -, hlast⟩ := getElem?_of_has hsource
      have hbound := le_sum_of_getElem? hsize
      exact ⟨hrange, by omega⟩
    · rintro ⟨hrange, hposition⟩
      obtain ⟨index, hsource⟩ := exists_sourceSpan hposition
      obtain ⟨fragment, hfragment, rfl⟩ := exists_fragment hsizes hsource hrange
      exact ⟨fragment, hfragment,
        (has_span_iff hsizes hfragment).mpr ⟨hsource, hrange⟩⟩
  complete := by
    intro index
    rw [List.mem_map]
    constructor
    · rintro ⟨fragment, hfragment, rfl⟩
      obtain ⟨size, hsize, hoverlap⟩ := (mem_fragments hsizes).mp hfragment
      obtain ⟨hlt, -⟩ := overlap?_eq_some.mp hoverlap
      refine ⟨(fragment.span set.sizes).offset,
        (has_span_iff hsizes hfragment).mp ⟨Nat.le_refl _, ?_⟩⟩
      rw [span_of_overlap? rfl hoverlap]
      unfold ByteRange.between
      dsimp only
      omega
    · rintro ⟨position, hsource, hrange⟩
      exact exists_fragment hsizes hsource hrange

/-! ## Cuts -/

theorem joinAt_fragmentsFrom (before : List Nat) {rest sizes : List Nat}
    {whole first second : ByteRange} (hsizes : before ++ rest = sizes)
    (hfits : sizes.sum < Size.limit) (hsplits : whole.Splits first second) :
    JoinAt sizes second.offset
      (fragmentsFrom first before.length before.sum rest)
      (fragmentsFrom second before.length before.sum rest)
      (fragmentsFrom whole before.length before.sum rest) := by
  have hfirst := hsplits.first_le
  have hsecond := hsplits.second_le
  have hfront := hsplits.front
  have hmeet := hsplits.meet
  have hback := hsplits.back
  induction rest generalizing before with
  | nil => exact .apart nofun
  | cons size rest ih =>
      have htotal : sizes.sum = before.sum + (size + rest.sum) := by
        rw [← hsizes, List.sum_append, List.sum_cons]
      have hspan : (sourceSpan sizes before.length).offset = before.sum :=
        hsizes ▸ offset_sourceSpan before (size :: rest)
      by_cases hbefore : second.offset ≤ before.sum
      · -- The cut lies in front of the source.
        have hnone : fragmentsFrom first before.length before.sum
            (size :: rest) = [] :=
          fragmentsFrom_eq_nil (by rw [List.sum_cons]; omega) (by omega)
        have hsame : fragmentsFrom whole before.length before.sum
              (size :: rest) =
            fragmentsFrom second before.length before.sum (size :: rest) :=
          fragmentsFrom_congr (by rw [List.sum_cons]; omega) (by omega) hback
        rw [hnone, hsame]
        exact .apart nofun
      rw [fragmentsFrom_cons (by omega), fragmentsFrom_cons (by omega),
        fragmentsFrom_cons (by omega)]
      by_cases hbehind : before.sum + size ≤ second.offset
      · -- The cut lies behind the source.
        have hnone : overlap? second before.length before.sum size = none :=
          overlap?_eq_none.mpr (by omega)
        have hsame : overlap? whole before.length before.sum size =
            overlap? first before.length before.sum size :=
          overlap?_congr (by omega) (by omega)
        have hlater := ih (before ++ [size]) (by rw [← hsizes]; simp)
        rw [List.length_append, List.sum_append, List.length_singleton,
          List.sum_singleton] at hlater
        rw [hnone, hsame]
        cases hoverlap : overlap? first before.length before.sum size with
        | none => exact hlater
        | some head =>
            obtain ⟨-, rfl⟩ := overlap?_eq_some.mp hoverlap
            exact hlater.cons fun other hother =>
              le_source_of_mem (by omega) hother
      · -- The cut lies inside the source.
        have hfirstRest : fragmentsFrom first (before.length + 1)
            (before.sum + size) rest = [] :=
          fragmentsFrom_eq_nil (by omega) (by omega)
        have hsame : fragmentsFrom whole (before.length + 1)
              (before.sum + size) rest =
            fragmentsFrom second (before.length + 1) (before.sum + size)
              rest :=
          fragmentsFrom_congr (by omega) (by omega) hback
        rw [hfirstRest, hsame, List.append_nil]
        exact joinAt_overlap? hspan hsplits (Nat.lt_of_not_le hbefore)
          (Nat.lt_of_not_le hbehind)
          fun other hother => le_source_of_mem (by omega) hother

/-- If the sizes add up to a word, the fragments of every range decompose what
the stream has of it, and where a range is cut in two, its fragments are those
of the two parts, but for the one source in which the cut may lie. -/
theorem fragments_exact (hsizes : set.sizes.sum < Size.limit) :
    (∀ range, IsDecomposition set.sizes range (set.fragments range)) ∧
      ∀ whole first second : ByteRange, whole.Splits first second →
        JoinAt set.sizes second.offset (set.fragments first)
          (set.fragments second) (set.fragments whole) :=
  ⟨isDecomposition_fragments hsizes,
    fun _ _ _ => joinAt_fragmentsFrom [] (List.nil_append set.sizes) hsizes⟩

/-- A range that goes on for ever over two sources with an empty one between
them, the last one of an estimated size.  A cut at 10 lies inside that one. -/
theorem fragments_exact_saturating_end :
    let set : SourceSet :=
      ⟨[.host [123, 125, 10, 91], .host [], .compressed
        ⟨[8, 28, 123, 34, 97, 34, 58, 49, 125, 10], .snappy, 40, false,
          none⟩], .none⟩
    let whole : ByteRange := ⟨3, Size.maximum⟩
    set.sizes.sum < Size.limit ∧
      set.fragments whole = [⟨0, ⟨3, 1⟩⟩, ⟨2, ⟨0, 40⟩⟩] ∧
      IsDecomposition set.sizes whole (set.fragments whole) ∧
      whole.Splits (.between 3 10) (.toEnd 10) ∧
      set.fragments (.between 3 10) = [⟨0, ⟨3, 1⟩⟩, ⟨2, ⟨0, 6⟩⟩] ∧
      JoinAt set.sizes 10 (set.fragments (.between 3 10))
        (set.fragments (.toEnd 10)) (set.fragments whole) := by
  intro set whole
  have hsizes : set.sizes.sum < Size.limit := by decide
  have hwhole : set.fragments whole = [⟨0, ⟨3, 1⟩⟩, ⟨2, ⟨0, 40⟩⟩] := by decide
  have hfront : set.fragments (.between 3 10) =
      [⟨0, ⟨3, 1⟩⟩, ⟨2, ⟨0, 6⟩⟩] := by decide
  have hsplits : whole.Splits (.between 3 10) (.toEnd 10) :=
    ⟨rfl, by decide, by decide, by decide, by decide⟩
  obtain ⟨hdecomposes, hjoins⟩ := fragments_exact hsizes
  exact ⟨hsizes, hwhole, hdecomposes whole, hsplits, hfront,
    hjoins whole (.between 3 10) (.toEnd 10) hsplits⟩

end SourceSet

end JsonIntake
