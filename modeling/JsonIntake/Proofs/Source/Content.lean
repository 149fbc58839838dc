import JsonIntake.Source.Set

/-!
# What sources stand for

A source stands for a sequence of bytes, its content.  A compressed source may
know less than its content: neither the size nor the bytes have to be at hand.
What it knows is true, and reading only adds to it.  The relation `Reads` says
what a use of a source can do to it: the content stays, and the source is
unchanged or has its exact size from then on.
-/

namespace JsonIntake

theorem clampRead_of_le {offset available : Nat} (size : Nat)
    (hoffset : offset ≤ available) :
    clampRead offset size available = .ok (min size (available - offset)) := by
  unfold clampRead
  rw [if_neg (by omega)]

theorem clampRead_of_lt {offset available : Nat} (size : Nat)
    (hoffset : available < offset) :
    clampRead offset size available =
      .error (.outOfRange offset available) := by
  unfold clampRead
  rw [if_pos hoffset]

theorem sliceRead_of_le (content : List UInt8) {offset : Nat} (size : Nat)
    (owned : Bool) (hoffset : offset ≤ content.length) :
    sliceRead content offset size owned =
      .ok ⟨(content.drop offset).take size, owned⟩ := by
  have htake :
      (content.drop offset).take (min size (content.length - offset)) =
        (content.drop offset).take size := by
    rw [← List.length_drop, ← List.take_eq_take_min]
  unfold sliceRead
  rw [clampRead_of_le size hoffset]
  exact congrArg (fun bytes => Except.ok (ReadBytes.mk bytes owned)) htake

theorem sliceRead_of_lt (content : List UInt8) {offset : Nat} (size : Nat)
    (owned : Bool) (hoffset : content.length < offset) :
    sliceRead content offset size owned =
      .error (.outOfRange offset content.length) := by
  rw [sliceRead, clampRead_of_lt size hoffset]
  rfl

namespace CompressedSource

structure Holds (source : CompressedSource) (content : List UInt8) :
    Prop where
  decompressed : decompress source.kind source.region = .ok content
  exactSize : source.exact = true → source.size = content.length
  kept : ∀ bytes, source.kept = some bytes →
    bytes = content ∧ source.exact = true

variable {source : CompressedSource} {content : List UInt8}

theorem Holds.withExactSize (hholds : source.Holds content) :
    (source.withExactSize content).Holds content where
  decompressed := hholds.decompressed
  exactSize _ := rfl
  kept bytes hkept := ⟨(hholds.kept bytes hkept).1, rfl⟩

theorem Holds.keep (hholds : source.Holds content) :
    ({ source.withExactSize content with kept := some content } :
      CompressedSource).Holds content where
  decompressed := hholds.decompressed
  exactSize _ := rfl
  kept _ hkept := ⟨(Option.some.inj hkept).symm, rfl⟩

theorem Holds.materialize (hholds : source.Holds content) :
    ∃ next, source.materialize = (.ok content.length, next) ∧
      next.Holds content ∧ next.exact = true := by
  unfold CompressedSource.materialize
  cases hkept : source.kept with
  | some bytes =>
      obtain ⟨-, hexact⟩ := hholds.kept bytes hkept
      exact ⟨source, by simp [hholds.exactSize hexact], hholds, hexact⟩
  | none =>
      simp only [hholds.decompressed]
      exact ⟨_, rfl, hholds.keep, rfl⟩

theorem Holds.hostRead (hholds : source.Holds content) {offset : Nat}
    (size : Nat) (hoffset : offset ≤ content.length) :
    ∃ owned next,
      source.hostRead offset size =
        (.ok ⟨(content.drop offset).take size, owned⟩, next) ∧
      next.Holds content ∧ next.exact = true := by
  unfold CompressedSource.hostRead
  cases hkept : source.kept with
  | some bytes =>
      obtain ⟨rfl, hexact⟩ := hholds.kept bytes hkept
      exact ⟨false, source, by simp only [sliceRead_of_le _ size _ hoffset],
        hholds, hexact⟩
  | none =>
      simp only [hholds.decompressed, clampRead_of_le size hoffset]
      split
      · exact ⟨true, _, by rw [sliceRead_of_le _ size _ hoffset],
          hholds.withExactSize, rfl⟩
      · exact ⟨false, _, by rw [sliceRead_of_le _ size _ hoffset],
          hholds.keep, rfl⟩

theorem Holds.hostRead_outside (hholds : source.Holds content)
    {offset : Nat} (size : Nat) (hoffset : content.length < offset) :
    ∃ next,
      source.hostRead offset size =
        (.error (.outOfRange offset content.length), next) ∧
      next.Holds content ∧ next.exact = true := by
  have hclamp := clampRead_of_lt size hoffset
  unfold CompressedSource.hostRead
  cases hkept : source.kept with
  | some bytes =>
      obtain ⟨rfl, hexact⟩ := hholds.kept bytes hkept
      exact ⟨source, by simp only [sliceRead_of_lt _ size _ hoffset], hholds,
        hexact⟩
  | none =>
      simp only [hholds.decompressed, hclamp]
      exact ⟨_, rfl, hholds.withExactSize, rfl⟩

end CompressedSource

namespace Source

def content? : Source → Except Failure (List UInt8)
  | .file source => .ok (source.content.take source.size)
  | .host bytes => .ok bytes
  | .device buffer => .ok buffer.toList
  | .compressed source => decompress source.kind source.region

/-- The bytes a source stands for; none if its region is broken. -/
def content (source : Source) : List UInt8 :=
  match source.content? with
  | .ok bytes => bytes
  | .error _ => []

def Readable (source : Source) : Prop :=
  source.content? = .ok source.content

/-- A source whose content can be got at, and what it knows of it is true.  A
file has not become shorter since it was opened. -/
def Sound : Source → Prop
  | .file source => source.size ≤ source.content.length
  | .host _ => True
  | .device _ => True
  | .compressed source => source.Holds (content (.compressed source))

structure Reads (before after : Source) : Prop where
  content_eq : after.content = before.content
  sound : after.Sound
  exact : after = before ∨ after.isSizeExact = true

def weight (source : Source) : Nat :=
  max source.size source.content.length

/-- A source of size zero has no content: no estimate is zero by mistake. -/
def Visible (source : Source) : Prop :=
  source.size = 0 → source.content = []

/-- A source without content has size zero: no estimate promises bytes that
are not there. -/
def Delivers (source : Source) : Prop :=
  source.content = [] → source.size = 0

theorem content_compressed {source : CompressedSource}
    {bytes : List UInt8} (hholds : source.Holds bytes) :
    content (.compressed source) = bytes := by
  simp [content, content?, hholds.decompressed]

theorem sound_compressed {source : CompressedSource} {bytes : List UInt8}
    (hholds : source.Holds bytes) : Sound (.compressed source) := by
  simpa only [Sound, content_compressed hholds] using hholds

theorem Reads.refl {source : Source} (hsound : source.Sound) :
    source.Reads source :=
  ⟨rfl, hsound, .inl rfl⟩

theorem Reads.trans {first second third : Source}
    (hfirst : first.Reads second) (hsecond : second.Reads third) :
    first.Reads third where
  content_eq := hsecond.content_eq.trans hfirst.content_eq
  sound := hsecond.sound
  exact := by
    rcases hsecond.exact with rfl | hexact
    · exact hfirst.exact
    · exact .inr hexact

theorem reads_compressed {before after : CompressedSource}
    {bytes : List UInt8} (hbefore : before.Holds bytes)
    (hafter : after.Holds bytes) (hexact : after.exact = true) :
    Reads (.compressed before) (.compressed after) where
  content_eq := by
    rw [content_compressed hafter, content_compressed hbefore]
  sound := sound_compressed hafter
  exact := .inr hexact

theorem Sound.size_eq {source : Source} (hsound : source.Sound)
    (hexact : source.isSizeExact = true) :
    source.size = source.content.length := by
  cases source with
  | file source =>
      have hshort : source.size ≤ source.content.length := hsound
      simp [size, content, content?, hshort]
  | host bytes => rfl
  | device buffer => simp [size, content, content?]
  | compressed source => exact hsound.exactSize hexact

theorem Reads.isSizeExact {before after : Source}
    (hreads : before.Reads after) (hexact : before.isSizeExact = true) :
    after.isSizeExact = true := by
  rcases hreads.exact with rfl | hafter
  · exact hexact
  · exact hafter

theorem Reads.visible {before after : Source}
    (hreads : before.Reads after) (hvisible : before.Visible) :
    after.Visible := by
  rcases hreads.exact with rfl | hexact
  · exact hvisible
  · intro hzero
    rw [hreads.sound.size_eq hexact] at hzero
    exact List.eq_nil_of_length_eq_zero hzero

theorem Reads.delivers {before after : Source}
    (hreads : before.Reads after) (hdelivers : before.Delivers) :
    after.Delivers := by
  rcases hreads.exact with rfl | hexact
  · exact hdelivers
  · intro hempty
    rw [hreads.sound.size_eq hexact, hempty]
    rfl

theorem Sound.visible {source : Source} (hsound : source.Sound)
    (hexact : source.isSizeExact = true) : source.Visible := by
  intro hzero
  rw [hsound.size_eq hexact] at hzero
  exact List.eq_nil_of_length_eq_zero hzero

theorem Sound.delivers {source : Source} (hsound : source.Sound)
    (hexact : source.isSizeExact = true) : source.Delivers := by
  intro hempty
  rw [hsound.size_eq hexact, hempty]
  rfl

/-! ## Using a source -/

theorem Sound.exactSize {source : Source} (hsound : source.Sound) :
    ∃ next, source.exactSize = (.ok source.content.length, next) ∧
      source.Reads next ∧ next.isSizeExact = true := by
  by_cases hexact : source.isSizeExact = true
  · refine ⟨source, ?_, .refl hsound, hexact⟩
    rw [← hsound.size_eq hexact]
    cases source with
    | file source => rfl
    | host bytes => rfl
    | device buffer => rfl
    | compressed source =>
        have hknown : source.exact = true := hexact
        simp [Source.exactSize, hknown, size]
  · cases source with
    | file source => exact absurd rfl hexact
    | host bytes => exact absurd rfl hexact
    | device buffer => exact absurd rfl hexact
    | compressed source =>
        have hholds : source.Holds (content (.compressed source)) := hsound
        have hunknown : ¬ source.exact = true := hexact
        obtain ⟨next, hnext, hafter, hknown⟩ := hholds.materialize
        refine ⟨.compressed next, ?_, reads_compressed hholds hafter hknown,
          hknown⟩
        simp only [Source.exactSize, if_neg hunknown, hnext]

theorem Sound.hostRead {source : Source} (hsound : source.Sound)
    {offset : Nat} (size : Nat) (hoffset : offset ≤ source.content.length) :
    ∃ owned next,
      source.hostRead offset size =
        (.ok ⟨(source.content.drop offset).take size, owned⟩, next) ∧
      source.Reads next ∧ next.isSizeExact = true := by
  cases source with
  | file source =>
      have hlength : (content (.file source)).length = source.size :=
        (hsound.size_eq rfl).symm
      rw [hlength] at hoffset
      refine ⟨true, .file source, ?_, .refl hsound, rfl⟩
      have hbytes :
          (source.content.drop offset).take
              (min size (source.size - offset)) =
            ((source.content.take source.size).drop offset).take size := by
        rw [List.drop_take, List.take_take]
      simp only [Source.hostRead, FileSource.read,
        clampRead_of_le size hoffset, content, content?, ← hbytes]
      rfl
  | host bytes =>
      have hread := sliceRead_of_le bytes size false hoffset
      exact ⟨false, .host bytes, by simp only [Source.hostRead, hread]; rfl,
        .refl hsound, rfl⟩
  | device buffer =>
      have hread := sliceRead_of_le buffer.toList size true hoffset
      exact ⟨true, .device buffer, by simp only [Source.hostRead, hread]; rfl,
        .refl hsound, rfl⟩
  | compressed source =>
      have hholds : source.Holds (content (.compressed source)) := hsound
      obtain ⟨owned, next, hnext, hafter, hknown⟩ :=
        hholds.hostRead size hoffset
      refine ⟨owned, .compressed next, ?_,
        reads_compressed hholds hafter hknown, hknown⟩
      simp only [Source.hostRead, hnext]

theorem Sound.copyTo {source : Source} (hsound : source.Sound)
    {offset : Nat} (size : Nat) (target : Buffer)
    (hoffset : offset ≤ source.content.length) :
    ∃ next,
      source.copyTo offset size target =
        (.ok (min size (source.content.length - offset),
          target.append ((source.content.drop offset).take size)), next) ∧
      source.Reads next ∧ next.isSizeExact = true := by
  have hlength :
      ((source.content.drop offset).take size).length =
        min size (source.content.length - offset) := by
    rw [List.length_take, List.length_drop]
  by_cases hdevice : source.supportsDeviceRead = true
  · cases source with
    | device buffer =>
        refine ⟨.device buffer, ?_, .refl hsound, rfl⟩
        have hread := sliceRead_of_le buffer.toList size true hoffset
        simp only [Source.copyTo, if_pos hdevice, deviceRead, hread]
        rw [← hlength]
        rfl
    | file source => exact absurd hdevice (by simp [supportsDeviceRead])
    | host bytes => exact absurd hdevice (by simp [supportsDeviceRead])
    | compressed source =>
        exact absurd hdevice (by simp [supportsDeviceRead])
  · obtain ⟨owned, next, hnext, hreads, hexact⟩ :=
      hsound.hostRead size hoffset
    refine ⟨next, ?_, hreads, hexact⟩
    simp only [Source.copyTo, if_neg hdevice, hnext, Except.map, hlength]

end Source

end JsonIntake
