import JsonIntake.Proofs.Source.Content
import JsonIntake.Proofs.Stream.Slices
import Mathlib.Algebra.GroupWithZero.Nat
import Mathlib.Data.List.Forall2

/-!
# The sources of a read as a stream

The facts about one source carry over to all sources of a read: their contents
stay, no size grows beyond what was allowed for, and an exact size stays
exact.
-/

namespace JsonIntake

namespace Size

theorem foldlM_add?_eq {start : Nat} (sizes : List Nat)
    (hstart : start < limit) :
    sizes.foldlM add? start =
      if start + sizes.sum < limit then some (start + sizes.sum)
      else none := by
  induction sizes generalizing start with
  | nil => exact (if_pos hstart).symm
  | cons size rest ih =>
      rw [List.foldlM_cons, List.sum_cons, ← Nat.add_assoc]
      by_cases hlt : start + size < limit
      · rw [add?_of_lt hlt]
        exact ih hlt
      · rw [add?_eq_none_iff.mpr (Nat.le_of_not_lt hlt), if_neg (by omega)]
        rfl

/-- No sum on the way is larger than the last one. -/
theorem sum?_eq (sizes : List Nat) :
    sum? sizes = if sizes.sum < limit then some sizes.sum else none := by
  rw [sum?, foldlM_add?_eq sizes (by decide), Nat.zero_add]

end Size

namespace Source

/-- Every source of a list after some use of it. -/
abbrev AllRead : List Source → List Source → Prop :=
  List.Forall₂ Reads

variable {before after : List Source}

theorem allRead_refl {sources : List Source}
    (hsound : ∀ source ∈ sources, source.Sound) :
    AllRead sources sources := by
  induction sources with
  | nil => exact .nil
  | cons source rest ih =>
      rw [List.forall_mem_cons] at hsound
      exact .cons (.refl hsound.1) (ih hsound.2)

theorem allRead_trans {first second third : List Source}
    (hfirst : AllRead first second) (hsecond : AllRead second third) :
    AllRead first third := by
  induction hfirst generalizing third with
  | nil => exact hsecond
  | cons hhead htail ih =>
      cases hsecond with
      | cons hhead' htail' => exact .cons (hhead.trans hhead') (ih htail')

theorem AllRead.content_eq (hread : AllRead before after) :
    after.map content = before.map content := by
  induction hread with
  | nil => rfl
  | cons hhead htail ih =>
      rw [List.map_cons, List.map_cons, hhead.content_eq, ih]

theorem AllRead.sound (hread : AllRead before after) :
    ∀ source ∈ after, source.Sound := by
  induction hread with
  | nil => simp
  | cons hhead htail ih => exact List.forall_mem_cons.mpr ⟨hhead.sound, ih⟩

/-- What every use of a source keeps holds of all sources afterwards. -/
theorem AllRead.keeps {Holds : Source → Prop} (hread : AllRead before after)
    (hkept : ∀ old new, Reads old new → Holds old → Holds new)
    (hbefore : ∀ source ∈ before, Holds source) :
    ∀ source ∈ after, Holds source := by
  induction hread with
  | nil => simp
  | cons hhead htail ih =>
      rw [List.forall_mem_cons] at hbefore ⊢
      exact ⟨hkept _ _ hhead hbefore.1, ih hbefore.2⟩

theorem AllRead.isSizeExact (hread : AllRead before after)
    (hexact : ∀ source ∈ before, source.isSizeExact = true) :
    ∀ source ∈ after, source.isSizeExact = true :=
  hread.keeps (fun _ _ hread => hread.isSizeExact) hexact

theorem sum_size_le (sources : List Source) :
    (sources.map size).sum ≤ (sources.map weight).sum := by
  induction sources with
  | nil => exact Nat.le_refl _
  | cons source rest ih =>
      have hhead : source.size ≤ source.weight := Nat.le_max_left _ _
      rw [List.map_cons, List.map_cons, List.sum_cons, List.sum_cons]
      omega

theorem length_contents_le (sources : List Source) :
    (sources.map content).flatten.length ≤ (sources.map weight).sum := by
  induction sources with
  | nil => exact Nat.le_refl _
  | cons source rest ih =>
      have hhead : source.content.length ≤ source.weight :=
        Nat.le_max_right _ _
      rw [List.map_cons, List.map_cons, List.flatten_cons, List.sum_cons,
        List.length_append]
      omega

theorem size_eq_of_exact {sources : List Source}
    (hsound : ∀ source ∈ sources, source.Sound)
    (hexact : ∀ source ∈ sources, source.isSizeExact = true) :
    sources.map size = (sources.map content).map List.length := by
  rw [List.map_map]
  apply List.map_congr_left
  intro source hsource
  exact (hsound source hsource).size_eq (hexact source hsource)

end Source

namespace SourceSet

/-- The contents of the sources, in order. -/
def contents (set : SourceSet) : List (List UInt8) :=
  set.sources.map Source.content

/-- Sources that can be read as one stream: what they know is true, and
their contents are not too long together. -/
structure Sound (set : SourceSet) : Prop where
  sources : ∀ source ∈ set.sources, source.Sound
  length_lt : set.contents.flatten.length < Size.limit

/-- Estimates and exact sizes may be mixed in sums. -/
def Fits (set : SourceSet) : Prop :=
  (set.sources.map Source.weight).sum < Size.limit

instance (set : SourceSet) : Decidable set.Fits :=
  Nat.decLt _ _

/-- Sources of a read after some use of them. -/
def Reads (before after : SourceSet) : Prop :=
  Source.AllRead before.sources after.sources

def Visible (set : SourceSet) : Prop :=
  ∀ source ∈ set.sources, source.Visible

def Delivers (set : SourceSet) : Prop :=
  ∀ source ∈ set.sources, source.Delivers

def Exact (set : SourceSet) : Prop :=
  ∀ source ∈ set.sources, source.isSizeExact = true

variable {before after set : SourceSet}

theorem Sound.refl (hsound : set.Sound) : set.Reads set :=
  Source.allRead_refl hsound.sources

theorem Reads.trans {first second third : SourceSet}
    (hfirst : first.Reads second) (hsecond : second.Reads third) :
    first.Reads third :=
  Source.allRead_trans hfirst hsecond

theorem Reads.contents_eq (hreads : before.Reads after) :
    after.contents = before.contents :=
  Source.AllRead.content_eq hreads

theorem Reads.sound (hreads : before.Reads after) (hsound : before.Sound) :
    after.Sound where
  sources := Source.AllRead.sound hreads
  length_lt := by
    rw [hreads.contents_eq]
    exact hsound.length_lt

theorem Reads.exact (hreads : before.Reads after) (hexact : before.Exact) :
    after.Exact :=
  Source.AllRead.isSizeExact hreads hexact

theorem Reads.visible (hreads : before.Reads after)
    (hvisible : before.Visible) : after.Visible :=
  Source.AllRead.keeps hreads (fun _ _ hread => hread.visible) hvisible

theorem Reads.delivers (hreads : before.Reads after)
    (hdelivers : before.Delivers) : after.Delivers :=
  Source.AllRead.keeps hreads (fun _ _ hread => hread.delivers) hdelivers

theorem Reads.fits (hreads : before.Reads after) (hfits : before.Fits) :
    after.Fits := by
  refine Nat.lt_of_le_of_lt ?_ hfits
  clear hfits
  have hread : Source.AllRead before.sources after.sources := hreads
  generalize before.sources = sources, after.sources = known at hread
  induction hread with
  | nil => exact Nat.le_refl _
  | cons hhead htail ih =>
      rw [List.map_cons, List.map_cons, List.sum_cons, List.sum_cons]
      refine Nat.add_le_add ?_ ih
      unfold Source.weight
      rw [hhead.content_eq]
      rcases hhead.exact with rfl | hexact
      · exact Nat.le_refl _
      · rw [hhead.sound.size_eq hexact, hhead.content_eq]
        omega

theorem Sound.visible (hsound : set.Sound) (hexact : set.Exact) :
    set.Visible :=
  fun source hsource =>
    (hsound.sources source hsource).visible (hexact source hsource)

theorem Fits.sound (hfits : set.Fits)
    (hsources : ∀ source ∈ set.sources, source.Sound) : set.Sound where
  sources := hsources
  length_lt :=
    Nat.lt_of_le_of_lt (Source.length_contents_le set.sources) hfits

theorem Sound.fits (hsound : set.Sound) (hexact : set.Exact) : set.Fits := by
  have hweight :
      set.sources.map Source.weight =
        set.contents.map List.length := by
    rw [contents, List.map_map]
    apply List.map_congr_left
    intro source hsource
    have hsize :=
      (hsound.sources source hsource).size_eq (hexact source hsource)
    simp [Source.weight, hsize]
  rw [Fits, hweight, ← List.length_flatten]
  exact hsound.length_lt

/-! ## Sizes -/

/-- A total is the sum of all sizes; there is none if that is no word. -/
theorem totalSize_eq (set : SourceSet) :
    set.totalSize =
      if set.sizes.sum < Size.limit then .ok set.sizes.sum
      else .error .overflow := by
  rw [totalSize, Size.sum?_eq]
  split <;> rfl

theorem totalSize_of_lt (hfits : set.sizes.sum < Size.limit) :
    set.totalSize = .ok set.sizes.sum := by
  rw [totalSize_eq, if_pos hfits]

theorem totalSize_eq_ok_iff {total : Nat} :
    set.totalSize = .ok total ↔
      set.sizes.sum < Size.limit ∧ set.sizes.sum = total := by
  rw [totalSize_eq]
  split <;> simp [*]

theorem Fits.sizes_lt (hfits : set.Fits) : set.sizes.sum < Size.limit :=
  Nat.lt_of_le_of_lt (Source.sum_size_le set.sources) hfits

theorem Fits.totalSize_eq (hfits : set.Fits) :
    set.totalSize = .ok set.sizes.sum :=
  totalSize_of_lt hfits.sizes_lt

theorem endsFrom?_eq {contents : List (List UInt8)} {start : Nat}
    (hfits : start + contents.flatten.length < Size.limit) :
    endsFrom? start (contents.map List.length) =
      some (contentEnds start contents) := by
  induction contents generalizing start with
  | nil => rfl
  | cons content rest ih =>
      rw [List.flatten_cons, List.length_append] at hfits
      simp only [List.map_cons, endsFrom?, contentEnds, Option.bind_eq_bind,
        Size.add?_of_lt (by omega : start + content.length < Size.limit),
        ih (by omega : start + content.length + rest.flatten.length <
          Size.limit), Option.bind_some]

theorem Sound.sizes_eq (hsound : set.Sound) (hexact : set.Exact) :
    set.sizes = set.contents.map List.length :=
  Source.size_eq_of_exact hsound.sources hexact

theorem Sound.sum_sizes_eq (hsound : set.Sound) (hexact : set.Exact) :
    set.sizes.sum = set.contents.flatten.length := by
  rw [hsound.sizes_eq hexact, ← List.length_flatten]

theorem Sound.ends_eq (hsound : set.Sound) (hexact : set.Exact) :
    set.ends = .ok (contentEnds 0 set.contents) := by
  have hfits := hsound.length_lt
  rw [ends, hsound.sizes_eq hexact, endsFrom?_eq (by omega)]
  rfl

theorem Sound.totalSize_eq (hsound : set.Sound) (hexact : set.Exact) :
    set.totalSize = .ok set.contents.flatten.length := by
  have hsizes := hsound.sum_sizes_eq hexact
  rw [totalSize_of_lt (hsizes ▸ hsound.length_lt), hsizes]

/-! ## Making sizes exact -/

theorem exactSources_of_sound {sources : List Source}
    (hsound : ∀ source ∈ sources, source.Sound) :
    ∃ next, exactSources sources = (none, next) ∧
      Source.AllRead sources next ∧
      ∀ source ∈ next, source.isSizeExact = true := by
  induction sources with
  | nil => exact ⟨[], rfl, .nil, by simp⟩
  | cons source rest ih =>
      rw [List.forall_mem_cons] at hsound
      obtain ⟨first, hfirst, hreads, hexact⟩ := hsound.1.exactSize
      obtain ⟨later, hlater, hallReads, hallExact⟩ := ih hsound.2
      refine ⟨first :: later, ?_, .cons hreads hallReads,
        List.forall_mem_cons.mpr ⟨hexact, hallExact⟩⟩
      simp only [exactSources, hfirst, hlater]

theorem Sound.materialize (hsound : set.Sound) :
    ∃ next, set.materialize = (.ok set.contents.flatten.length, next) ∧
      set.Reads next ∧ next.Exact := by
  obtain ⟨sources, hsources, hreads, hexact⟩ :=
    exactSources_of_sound hsound.sources
  refine ⟨{ set with sources }, ?_, hreads, hexact⟩
  have hnext : Reads set { set with sources } := hreads
  have htotal :=
    (hnext.sound hsound).totalSize_eq hexact
  rw [hnext.contents_eq] at htotal
  simp only [SourceSet.materialize, hsources, htotal]

/-! ## Copying from one source -/

theorem allRead_set {sources : List Source} {index : Nat}
    {before after : Source}
    (hsound : ∀ source ∈ sources, source.Sound)
    (hbefore : sources[index]? = some before)
    (hreads : before.Reads after) :
    Source.AllRead sources (sources.set index after) := by
  induction sources generalizing index with
  | nil => exact .nil
  | cons source rest ih =>
      rw [List.forall_mem_cons] at hsound
      cases index with
      | zero =>
          obtain rfl : source = before := by simpa using hbefore
          exact .cons hreads (Source.allRead_refl hsound.2)
      | succ index =>
          rw [List.getElem?_cons_succ] at hbefore
          exact .cons (.refl hsound.1) (ih hsound.2 hbefore)

theorem Sound.copyTo (hsound : set.Sound) {index offset : Nat}
    {content : List UInt8} (size : Nat) (target : Buffer)
    (hcontent : set.contents[index]? = some content)
    (hoffset : offset ≤ content.length) :
    ∃ next,
      set.copyTo index offset size target =
        (.ok (target.append ((content.drop offset).take size)), next) ∧
      set.Reads next := by
  unfold contents at hcontent
  rw [List.getElem?_map] at hcontent
  obtain ⟨source, hsource, rfl⟩ := Option.map_eq_some_iff.mp hcontent
  have hmem : source ∈ set.sources := List.mem_of_getElem? hsource
  obtain ⟨next, hnext, hreads, -⟩ :=
    (hsound.sources source hmem).copyTo size target hoffset
  refine ⟨{ set with sources := set.sources.set index next }, ?_,
    allRead_set hsound.sources hsource hreads⟩
  simp only [SourceSet.copyTo, hsource, hnext]
  rfl

end SourceSet

end JsonIntake
