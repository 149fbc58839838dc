import JsonIntake.Plan
import JsonIntake.Proofs.Source.Stream

/-!
# The search for boundaries

A position of the stream is located in one of the contents by their ends, and
a stretch that stays inside that content is copied as it stands in the stream.
The search for the last boundary of a window looks at the bytes behind the
last source end only.  They lie in one content, for the content that holds the
first of them ends behind the window, and every boundary that is passed over
stands in front of the one that is found.
-/

namespace JsonIntake

/-! ## Delimiters in a stretch of bytes -/

section Delimiters

variable {delimiter : UInt8} {bytes : List UInt8} {length : Nat}

theorem not_mem_takeWhile_ne :
    delimiter ∉ bytes.takeWhile fun byte => byte ≠ delimiter := by
  intro hmem
  have hne := List.all_eq_true.mp List.all_takeWhile delimiter hmem
  simp at hne

theorem takeWhile_ne_of_lt
    (hlt : (bytes.takeWhile fun byte => byte ≠ delimiter).length <
      bytes.length) :
    ∃ back, bytes =
      (bytes.takeWhile fun byte => byte ≠ delimiter) ++
        delimiter :: back := by
  have hsplit : (bytes.takeWhile fun byte => byte ≠ delimiter) ++
      bytes.dropWhile (fun byte => byte ≠ delimiter) = bytes :=
    List.takeWhile_append_dropWhile
  have hhead := List.head?_dropWhile_not (fun byte => byte ≠ delimiter) bytes
  cases hback : bytes.dropWhile fun byte => byte ≠ delimiter with
  | nil =>
      rw [hback, List.append_nil] at hsplit
      rw [hsplit] at hlt
      omega
  | cons byte back =>
      rw [hback] at hhead hsplit
      obtain rfl : byte = delimiter := by simpa using hhead
      exact ⟨back, hsplit.symm⟩

theorem not_mem_of_takeWhile_ne
    (hlong : ¬ (bytes.takeWhile fun byte => byte ≠ delimiter).length <
      bytes.length) :
    delimiter ∉ bytes := by
  have hwhole :=
    (List.takeWhile_prefix (fun byte => byte ≠ delimiter)).eq_of_length_le
      (Nat.le_of_not_lt hlong)
  rw [← hwhole]
  exact not_mem_takeWhile_ne

theorem firstDelimiterEnd?_eq_some
    (hlength : firstDelimiterEnd? delimiter bytes = some length) :
    ∃ front back, bytes = front ++ delimiter :: back ∧
      delimiter ∉ front ∧ length = front.length + 1 := by
  simp only [firstDelimiterEnd?] at hlength
  split at hlength
  · next hshort =>
      obtain ⟨back, hback⟩ := takeWhile_ne_of_lt hshort
      exact ⟨_, back, hback, not_mem_takeWhile_ne,
        (Option.some.inj hlength).symm⟩
  · exact absurd hlength (by simp)

theorem firstDelimiterEnd?_eq_none
    (hnone : firstDelimiterEnd? delimiter bytes = none) :
    delimiter ∉ bytes := by
  simp only [firstDelimiterEnd?] at hnone
  split at hnone
  · exact absurd hnone (by simp)
  · next hlong => exact not_mem_of_takeWhile_ne hlong

theorem lastDelimiterEnd?_eq_some
    (hlength : lastDelimiterEnd? delimiter bytes = some length) :
    ∃ front back, bytes = front ++ delimiter :: back ∧
      delimiter ∉ back ∧ length = front.length + 1 := by
  have hreverse : bytes.reverse.length = bytes.length := List.length_reverse
  simp only [lastDelimiterEnd?] at hlength
  split at hlength
  · next hshort =>
      rw [← hreverse] at hshort
      obtain ⟨front, hfront⟩ := takeWhile_ne_of_lt hshort
      have hbytes := congrArg List.reverse hfront
      rw [List.reverse_reverse, List.reverse_append, List.reverse_cons,
        List.append_assoc, List.singleton_append] at hbytes
      refine ⟨front.reverse, _, hbytes, ?_, ?_⟩
      · rw [List.mem_reverse]
        exact not_mem_takeWhile_ne
      · have hcount := congrArg List.length hfront
        rw [List.length_append, List.length_cons, List.length_reverse]
          at hcount
        have heq := Option.some.inj hlength
        rw [List.length_reverse]
        omega
  · exact absurd hlength (by simp)

theorem lastDelimiterEnd?_le
    (hlength : lastDelimiterEnd? delimiter bytes = some length) :
    length ≤ bytes.length := by
  obtain ⟨front, back, rfl, -, rfl⟩ := lastDelimiterEnd?_eq_some hlength
  rw [List.length_append, List.length_cons]
  omega

theorem lastDelimiterEnd?_eq_none
    (hnone : lastDelimiterEnd? delimiter bytes = none) :
    delimiter ∉ bytes := by
  have hreverse : bytes.reverse.length = bytes.length := List.length_reverse
  simp only [lastDelimiterEnd?] at hnone
  split at hnone
  · exact absurd hnone (by simp)
  · next hlong =>
      rw [← hreverse] at hlong
      rw [← List.mem_reverse]
      exact not_mem_of_takeWhile_ne hlong

end Delimiters

/-! ## Places in the stream -/

/-- A position of the stream lies in one of the contents, and what follows it
there is what follows it in the stream. -/
structure Located (contents : List (List UInt8)) (start position index : Nat)
    (base : Nat) (content later : List UInt8) : Prop where
  found : contents[index]? = some content
  base_le : base ≤ position
  position_lt : position < base + content.length
  stop : (contentEnds start contents)[index]? = some (base + content.length)
  stop_le : ∀ later ∈ contentEnds start contents, position < later →
    base + content.length ≤ later
  behind : contents.flatten.drop (position - start) =
    content.drop (position - base) ++ later

theorem le_of_mem_contentEnds {contents : List (List UInt8)}
    {start stop : Nat} (hstop : stop ∈ contentEnds start contents) :
    start ≤ stop := by
  rw [contentEnds_eq_map] at hstop
  obtain ⟨offset, -, rfl⟩ := List.mem_map.mp hstop
  exact Nat.le_add_right start offset

theorem getElem?_contentEnds {contents : List (List UInt8)} (start : Nat)
    {index : Nat} {content : List UInt8}
    (hcontent : contents[index]? = some content) :
    (contentEnds start contents)[index]? =
      some (start + ((contents.map List.length).take index).sum +
        content.length) := by
  induction contents generalizing index start with
  | nil => exact absurd hcontent (by simp)
  | cons head rest ih =>
      cases index with
      | zero =>
          obtain rfl : head = content := by simpa using hcontent
          simp [contentEnds]
      | succ index =>
          rw [List.getElem?_cons_succ] at hcontent
          rw [contentEnds, List.getElem?_cons_succ, ih _ hcontent]
          simp [Nat.add_assoc]

theorem exists_located (contents : List (List UInt8)) {start position : Nat}
    (hstart : start ≤ position)
    (hposition : position < start + contents.flatten.length) :
    ∃ content later,
      Located contents start position
        ((contentEnds start contents).takeWhile
          fun stop => stop ≤ position).length
        (((contentEnds start contents).takeWhile
          fun stop => stop ≤ position).getLast?.getD start)
        content later := by
  induction contents generalizing start with
  | nil =>
      rw [List.flatten_nil, List.length_nil] at hposition
      omega
  | cons content rest ih =>
      rw [List.flatten_cons, List.length_append] at hposition
      by_cases hbehind : start + content.length ≤ position
      · obtain ⟨found, later, hlocated⟩ := ih hbehind (by omega)
        have htake :
            ((contentEnds start (content :: rest)).takeWhile
                fun stop => stop ≤ position) =
              (start + content.length) ::
                ((contentEnds (start + content.length) rest).takeWhile
                  fun stop => stop ≤ position) := by
          rw [contentEnds, List.takeWhile_cons_of_pos (by simpa)]
        have hdrop :
            (content ++ rest.flatten).drop (position - start) =
              rest.flatten.drop (position - (start + content.length)) := by
          rw [List.drop_append, List.drop_eq_nil_of_le (by omega),
            List.nil_append]
          congr 1
          omega
        rw [htake, List.getLast?_cons, Option.getD_some, List.length_cons]
        refine ⟨found, later, ?_, hlocated.base_le, hlocated.position_lt,
          ?_, ?_, ?_⟩
        · rw [List.getElem?_cons_succ]
          exact hlocated.found
        · rw [contentEnds, List.getElem?_cons_succ]
          exact hlocated.stop
        · intro stop hstop hlt
          rcases List.mem_cons.mp hstop with rfl | hrest
          · omega
          · exact hlocated.stop_le stop hrest hlt
        · rw [List.flatten_cons, hdrop]
          exact hlocated.behind
      · have htake :
            ((contentEnds start (content :: rest)).takeWhile
                fun stop => stop ≤ position) = [] := by
          rw [contentEnds, List.takeWhile_cons_of_neg (by simpa using hbehind)]
        rw [htake]
        have hinside : position < start + content.length := by omega
        refine ⟨content, rest.flatten, rfl, hstart, hinside, rfl, ?_, ?_⟩
        · intro stop hstop hlt
          rcases List.mem_cons.mp hstop with rfl | hrest
          · exact Nat.le_refl _
          · exact le_of_mem_contentEnds hrest
        · rw [List.flatten_cons, List.drop_append_of_le_length (by omega)]
          rfl

namespace BufferPool

@[simp] theorem toList_get_advance (pool : BufferPool) :
    (pool.advance.2.get pool.advance.1).toList = [] := by
  simp only [advance, get, Array.getD_eq_getD_getElem?,
    Array.getElem?_modify, if_true]
  cases pool.buffers[pool.next]? with
  | none => rfl
  | some buffer => rfl

theorem get_advance (pool : BufferPool) :
    pool.advance.2.get pool.advance.1 = .empty :=
  Buffer.ext_toList (toList_get_advance pool)

end BufferPool

/-- A position of the stream lies in a source that ends behind it, and no
source ends in between. -/
theorem exists_sourceEnd {contents : List (List UInt8)} {position : Nat}
    (hposition : position < contents.flatten.length) :
    ∃ stop,
      (contentEnds 0 contents)[(locate (contentEnds 0 contents)
        position).1]? = some stop ∧
      position < stop ∧
      ∀ later ∈ contentEnds 0 contents, position < later → stop ≤ later := by
  obtain ⟨content, later, hlocated⟩ :=
    exists_located contents (Nat.zero_le position) (by omega)
  exact ⟨_, hlocated.stop, hlocated.position_lt, hlocated.stop_le⟩

/-- A stretch that stays in one source is copied as it stands in the
stream. -/
theorem SourceSet.Sound.copyTo_located {set : SourceSet} {start : Nat}
    (hsound : set.Sound) (size : Nat) (target : Buffer)
    (hstart : start < set.contents.flatten.length)
    (hinside : ∀ stop ∈ contentEnds 0 set.contents,
      start < stop → start + size ≤ stop) :
    ∃ next,
      set.copyTo (locate (contentEnds 0 set.contents) start).1
          (locate (contentEnds 0 set.contents) start).2 size target =
        (.ok (target.append ((set.contents.flatten.drop start).take size)),
          next) ∧
      set.Reads next := by
  obtain ⟨content, later, hlocated⟩ :=
    exists_located set.contents (Nat.zero_le start) (by omega)
  have hroom :=
    hinside _ (List.mem_of_getElem? hlocated.stop) hlocated.position_lt
  have hbase := hlocated.base_le
  have hposition := hlocated.position_lt
  have hoffset :
      (locate (contentEnds 0 set.contents) start).2 ≤ content.length := by
    simp only [locate]
    omega
  obtain ⟨next, hcopy, hreads⟩ :=
    hsound.copyTo size target hlocated.found hoffset
  have hbehind := hlocated.behind
  have hbytes :
      (set.contents.flatten.drop start).take size =
        (content.drop (locate (contentEnds 0 set.contents) start).2).take
          size := by
    rw [Nat.sub_zero] at hbehind
    rw [hbehind, List.take_append_of_le_length]
    · rfl
    · rw [List.length_drop]
      omega
  refine ⟨next, ?_, hreads⟩
  rw [hbytes]
  exact hcopy

namespace Probe

variable {probe : Probe} {contents : List (List UInt8)}

theorem stage_of_sound {start : Nat} (size : Nat) (hsound : probe.set.Sound)
    (hstart : start < probe.set.contents.flatten.length)
    (hinside : ∀ stop ∈ contentEnds 0 probe.set.contents,
      start < stop → start + size ≤ stop) :
    ∃ buffer next,
      probe.stage (contentEnds 0 probe.set.contents) start size =
        (.ok buffer, next) ∧
      buffer.toList = (probe.set.contents.flatten.drop start).take size ∧
      probe.set.Reads next.set := by
  obtain ⟨set, hcopy, hreads⟩ :=
    hsound.copyTo_located size
      (probe.pool.advance.2.get probe.pool.advance.1) hstart hinside
  refine ⟨_, _, by simp only [stage, hcopy]; rfl, ?_, hreads⟩
  rw [Buffer.toList_append, BufferPool.toList_get_advance, List.nil_append]

end Probe

/-! ## Windows -/

/-- The answer to a search for the last boundary in `(low, high]`. -/
def IsLastBoundary (delimiter : UInt8) (contents : List (List UInt8))
    (low high : Nat) : Option Nat → Prop
  | none =>
    ∀ position, low < position → position ≤ high →
      ¬ IsBoundary delimiter contents position
  | some cut =>
    low < cut ∧ cut ≤ high ∧ IsBoundary delimiter contents cut ∧
      ∀ position, cut < position → position ≤ high →
        ¬ IsBoundary delimiter contents position

section Window

variable {delimiter : UInt8} {contents : List (List UInt8)}
  {low start high : Nat}

theorem IsLastBoundary.unique {answer other : Option Nat}
    (hanswer : IsLastBoundary delimiter contents low high answer)
    (hother : IsLastBoundary delimiter contents low high other) :
    answer = other := by
  cases answer with
  | none =>
      cases other with
      | none => rfl
      | some cut =>
          obtain ⟨hlow, hhigh, hboundary, -⟩ := hother
          exact absurd hboundary (hanswer cut hlow hhigh)
  | some cut =>
      obtain ⟨hlow, hhigh, hboundary, hbehind⟩ := hanswer
      cases other with
      | none => exact absurd hboundary (hother cut hlow hhigh)
      | some last =>
          obtain ⟨-, hlast, hlastBoundary, hlastBehind⟩ := hother
          rcases Nat.lt_trichotomy cut last with hlt | rfl | hlt
          · exact absurd hlastBoundary (hbehind last hlt hlast)
          · rfl
          · exact absurd hboundary (hlastBehind cut hlt hhigh)

/-- Where the search for the last boundary begins: at the last source end of
the window, or at its front. -/
structure IsSearchStart (contents : List (List UInt8)) (low high : Nat)
    (sourceEnd : Option Nat) : Prop where
  low_le : low ≤ sourceEnd.getD low
  le_high : sourceEnd.getD low ≤ high
  inside : ∀ stop, sourceEnd = some stop →
    low < stop ∧ stop ∈ contentEnds 0 contents
  last : ∀ stop ∈ contentEnds 0 contents,
    sourceEnd.getD low < stop → high < stop

theorem isSearchStart_max? (contents : List (List UInt8))
    (hlow : low ≤ high) :
    IsSearchStart contents low high
      ((contentEnds 0 contents).filter fun stop =>
        low < stop && stop ≤ high).max? := by
  cases hmax :
      ((contentEnds 0 contents).filter fun stop =>
        low < stop && stop ≤ high).max? with
  | none =>
      rw [List.max?_eq_none_iff, List.filter_eq_nil_iff] at hmax
      refine ⟨Nat.le_refl _, hlow, nofun, ?_⟩
      intro stop hstop hlt
      have hout := hmax stop hstop
      simp only [Option.getD_none] at hlt
      simp only [Bool.and_eq_true, decide_eq_true_eq] at hout
      omega
  | some last =>
      rw [List.max?_eq_some_iff] at hmax
      obtain ⟨hmem, hle⟩ := hmax
      simp only [List.mem_filter, Bool.and_eq_true, decide_eq_true_eq]
        at hmem hle
      refine ⟨Nat.le_of_lt hmem.2.1, hmem.2.2, ?_, ?_⟩
      · rintro stop ⟨rfl⟩
        exact ⟨hmem.2.1, hmem.1⟩
      · intro stop hstop hlt
        simp only [Option.getD_some] at hlt
        by_contra hinside
        have hbound := hle stop ⟨hstop, by omega, by omega⟩
        omega

theorem getElem?_drop_take (bytes : List UInt8) (start : Nat)
    {size index : Nat}
    (hindex : index < size) :
    ((bytes.drop start).take size)[index]? = bytes[start + index]? := by
  rw [List.getElem?_take, if_pos hindex, List.getElem?_drop]

/-- Where no source ends and no delimiter stands, there is no boundary. -/
theorem not_isBoundary_of_not_mem {position size : Nat}
    (hends : ∀ stop ∈ contentEnds 0 contents, start < stop →
      position < stop)
    (hmem : delimiter ∉ (contents.flatten.drop start).take size)
    (hstart : start < position) (hsize : position ≤ start + size) :
    ¬ IsBoundary delimiter contents position := by
  rintro (hend | ⟨-, hbyte⟩)
  · have hlt := hends position hend hstart
    omega
  · apply hmem
    have hindex : position - 1 - start < size := by omega
    have hfound := getElem?_drop_take contents.flatten start hindex
    have hplace : start + (position - 1 - start) = position - 1 := by omega
    rw [hplace, hbyte] at hfound
    exact List.mem_of_getElem? hfound

theorem isLastBoundary_of_delimiter {front back : List UInt8}
    (hlow : low ≤ start)
    (hlast : ∀ stop ∈ contentEnds 0 contents, start < stop → high < stop)
    (hhigh : high ≤ contents.flatten.length)
    (hbytes : (contents.flatten.drop start).take (high - start) =
      front ++ delimiter :: back)
    (hback : delimiter ∉ back) :
    IsLastBoundary delimiter contents low high
      (some (start + (front.length + 1))) := by
  have hlength := congrArg List.length hbytes
  rw [List.length_take, List.length_drop, List.length_append,
    List.length_cons] at hlength
  refine ⟨by omega, by omega, .inr ⟨by omega, ?_⟩, ?_⟩
  · have hindex : front.length < high - start := by omega
    have hbyte := getElem?_drop_take contents.flatten start hindex
    rw [hbytes, List.getElem?_append_right (Nat.le_refl _), Nat.sub_self,
      List.getElem?_cons_zero] at hbyte
    exact hbyte.symm
  · intro position hposition hle
    have hrest :
        (contents.flatten.drop (start + (front.length + 1))).take
          (high - start - (front.length + 1)) = back := by
      rw [← List.drop_drop, ← List.drop_take, hbytes,
        ← List.drop_drop, List.drop_left]
      rfl
    rw [← hrest] at hback
    refine not_isBoundary_of_not_mem ?_ hback hposition (by omega)
    intro stop hstop hlt
    have hhigh' := hlast stop hstop (by omega)
    omega

theorem isLastBoundary_of_no_delimiter {sourceEnd : Option Nat}
    (hsearch : IsSearchStart contents low high sourceEnd)
    (hnone : delimiter ∉
      (contents.flatten.drop (sourceEnd.getD low)).take
        (high - sourceEnd.getD low)) :
    IsLastBoundary delimiter contents low high sourceEnd := by
  have hempty : ∀ position, sourceEnd.getD low < position →
      position ≤ high → ¬ IsBoundary delimiter contents position := by
    intro position hstart hhigh
    refine not_isBoundary_of_not_mem ?_ hnone hstart (by omega)
    intro stop hstop hlt
    have hhigh' := hsearch.last stop hstop hlt
    omega
  cases sourceEnd with
  | none => exact hempty
  | some stop =>
      obtain ⟨hlow, hend⟩ := hsearch.inside stop rfl
      exact ⟨hlow, hsearch.le_high, .inl hend, hempty⟩

end Window

namespace Probe

theorem lastBoundary_of_sound {probe : Probe} (hsound : probe.set.Sound)
    (delimiter : UInt8) {low high : Nat} (hlow : low ≤ high)
    (hhigh : high ≤ probe.set.contents.flatten.length) :
    ∃ answer next,
      probe.lastBoundary (contentEnds 0 probe.set.contents) low high
        delimiter = (.ok answer, next) ∧
      IsLastBoundary delimiter probe.set.contents low high answer ∧
      probe.set.Reads next.set := by
  have hsearch := isSearchStart_max? probe.set.contents hlow
  unfold lastBoundary
  generalize ((contentEnds 0 probe.set.contents).filter fun stop =>
    low < stop && stop ≤ high).max? = sourceEnd at hsearch ⊢
  have hstart := hsearch.low_le
  by_cases hwindow : sourceEnd.getD low < high
  · obtain ⟨buffer, next, hstage, hbuffer, hreads⟩ :=
      stage_of_sound (high - sourceEnd.getD low) hsound
        (Nat.lt_of_lt_of_le hwindow hhigh)
        (fun stop hstop hlt => by
          have hbehind := hsearch.last stop hstop hlt
          omega)
    simp only [if_pos hwindow, hstage, hbuffer]
    cases hlength : lastDelimiterEnd? delimiter
        ((probe.set.contents.flatten.drop (sourceEnd.getD low)).take
          (high - sourceEnd.getD low)) with
    | none =>
        exact ⟨sourceEnd, next, rfl,
          isLastBoundary_of_no_delimiter hsearch
            (lastDelimiterEnd?_eq_none hlength), hreads⟩
    | some length =>
        obtain ⟨front, back, hbytes, hback, rfl⟩ :=
          lastDelimiterEnd?_eq_some hlength
        have hlast :=
          isLastBoundary_of_delimiter hstart hsearch.last hhigh hbytes hback
        have hword : sourceEnd.getD low + (front.length + 1) < Size.limit :=
          Nat.lt_of_le_of_lt (Nat.le_trans hlast.2.1 hhigh) hsound.length_lt
        refine ⟨_, next, ?_, hlast, hreads⟩
        simp only [Size.add?_of_lt hword]
  · simp only [if_neg hwindow]
    refine ⟨sourceEnd, probe, rfl,
      isLastBoundary_of_no_delimiter hsearch ?_, hsound.refl⟩
    have hzero : high - sourceEnd.getD low = 0 := by omega
    rw [hzero]
    simp

end Probe

end JsonIntake
