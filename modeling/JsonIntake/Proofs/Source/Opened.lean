import JsonIntake.Proofs.Source.Content

/-!
# Opened sources

A source is opened over a file, over bytes in memory or over a compressed
region, and may have been used before.  Whatever was done with it, what it
knows is true.  Where the ratio of a compressed source is not zero, its
estimate is not zero either, because no format with an estimate has an empty
region.
-/

namespace JsonIntake

namespace CompressedSource

theorem materialize_kind (source : CompressedSource) :
    source.materialize.2.kind = source.kind := by
  unfold materialize
  split
  · rfl
  · split <;> rfl

theorem materialize_region (source : CompressedSource) :
    source.materialize.2.region = source.region := by
  unfold materialize
  split
  · rfl
  · split <;> rfl

theorem hostRead_kind (source : CompressedSource) (offset size : Nat) :
    (source.hostRead offset size).2.kind = source.kind := by
  unfold hostRead
  split
  · rfl
  · split
    · rfl
    · dsimp only
      split
      · rfl
      · split <;> rfl

theorem hostRead_region (source : CompressedSource) (offset size : Nat) :
    (source.hostRead offset size).2.region = source.region := by
  unfold hostRead
  split
  · rfl
  · split
    · rfl
    · dsimp only
      split
      · rfl
      · split <;> rfl

theorem make_cases {region : List UInt8} {kind : Compression} {ratio : Nat}
    {source : CompressedSource} (hmake : make region kind ratio = .ok source) :
    (kind.sizeStrategy = .estimate ∧
        source = ⟨region, kind, Compression.estimatedSize region.length ratio,
          false, none⟩) ∨
      ∃ content, decompress kind region = .ok content ∧
        source = ⟨region, kind, content.length, true, some content⟩ := by
  unfold make at hmake
  split at hmake
  · exact absurd hmake (by simp)
  · split at hmake
    · next hstrategy => exact .inl ⟨hstrategy, (Except.ok.inj hmake).symm⟩
    · cases hcontent : decompress kind region with
      | error failure =>
          rw [hcontent] at hmake
          exact absurd hmake (by simp [bind, Except.bind])
      | ok content =>
          rw [hcontent] at hmake
          exact .inr ⟨content, rfl, (Except.ok.inj hmake).symm⟩

theorem make_eq {region : List UInt8} {kind : Compression} {ratio : Nat}
    {source : CompressedSource} (hmake : make region kind ratio = .ok source) :
    source.kind = kind ∧ source.region = region := by
  rcases make_cases hmake with ⟨-, rfl⟩ | ⟨content, -, rfl⟩
  · exact ⟨rfl, rfl⟩
  · exact ⟨rfl, rfl⟩

theorem holds_make {region : List UInt8} {kind : Compression} {ratio : Nat}
    {source : CompressedSource} {content : List UInt8}
    (hmake : make region kind ratio = .ok source)
    (hcontent : decompress kind region = .ok content) :
    source.Holds content := by
  rcases make_cases hmake with ⟨-, rfl⟩ | ⟨bytes, hbytes, rfl⟩
  · exact ⟨hcontent, nofun, nofun⟩
  · obtain rfl := Except.ok.inj (hbytes.symm.trans hcontent)
    exact ⟨hcontent, fun _ => rfl,
      fun _ hkept => ⟨(Option.some.inj hkept).symm, rfl⟩⟩

end CompressedSource

theorem decompress_nil_of_estimate {kind : Compression}
    (hstrategy : kind.sizeStrategy = .estimate) (content : List UInt8) :
    decompress kind [] ≠ .ok content := by
  cases kind with
  | none => exact absurd hstrategy (by decide)
  | auto => exact absurd hstrategy (by decide)
  | gzip => intro h; cases h
  | zip => intro h; cases h
  | snappy => intro h; cases h
  | zstd => exact absurd hstrategy (by decide)
  | bzip2 => exact absurd hstrategy (by decide)
  | xz => exact absurd hstrategy (by decide)

namespace Source

/-- A source as it is opened, with a ratio of at least `least` if it is
compressed, and perhaps used since. -/
inductive Opened (least : Nat) : Source → Prop where
  | file {source : FileSource}
      (hsize : source.size ≤ source.content.length) :
      Opened least (.file source)
  | host (bytes : List UInt8) : Opened least (.host bytes)
  | device (buffer : Buffer) : Opened least (.device buffer)
  | compressed {region : List UInt8} {kind : Compression} {ratio : Nat}
      {source : CompressedSource} (hratio : least ≤ ratio)
      (hmake : CompressedSource.make region kind ratio = .ok source) :
      Opened least (.compressed source)
  | sized {source : Source} (hopened : Opened least source) :
      Opened least source.exactSize.2
  | read {source : Source} (hopened : Opened least source)
      (offset size : Nat) : Opened least (source.hostRead offset size).2

theorem content?_exactSize (source : Source) :
    source.exactSize.2.content? = source.content? := by
  cases source with
  | file source => rfl
  | host bytes => rfl
  | device buffer => rfl
  | compressed source =>
      unfold exactSize
      dsimp only
      split
      · rfl
      · simp only [content?, CompressedSource.materialize_kind,
          CompressedSource.materialize_region]

theorem content?_hostRead (source : Source) (offset size : Nat) :
    (source.hostRead offset size).2.content? = source.content? := by
  cases source with
  | file source => rfl
  | host bytes => rfl
  | device buffer => rfl
  | compressed source =>
      simp only [hostRead, content?, CompressedSource.hostRead_kind,
        CompressedSource.hostRead_region]

theorem readable_of_content?_eq {before after : Source}
    (hcontent : after.content? = before.content?)
    (hreadable : after.Readable) : before.Readable := by
  unfold Readable content at *
  rwa [hcontent] at hreadable

theorem Sound.reads_hostRead {source : Source} (hsound : source.Sound)
    (offset size : Nat) :
    source.Reads (source.hostRead offset size).2 := by
  by_cases hoffset : offset ≤ source.content.length
  · obtain ⟨owned, next, hnext, hreads, -⟩ := hsound.hostRead size hoffset
    rwa [hnext]
  · cases source with
    | file source => exact .refl hsound
    | host bytes => exact .refl hsound
    | device buffer => exact .refl hsound
    | compressed source =>
        have hholds : source.Holds (content (.compressed source)) := hsound
        obtain ⟨next, hnext, hafter, hexact⟩ :=
          hholds.hostRead_outside size (Nat.lt_of_not_le hoffset)
        simp only [Source.hostRead, hnext]
        exact reads_compressed hholds hafter hexact

theorem sound_make {region : List UInt8} {kind : Compression} {ratio : Nat}
    {source : CompressedSource}
    (hmake : CompressedSource.make region kind ratio = .ok source)
    (hreadable : Readable (.compressed source)) :
    Sound (.compressed source) := by
  have hdecompressed :
      decompress source.kind source.region =
        .ok (content (.compressed source)) := hreadable
  obtain ⟨hkind, hregion⟩ := CompressedSource.make_eq hmake
  rw [hkind, hregion] at hdecompressed
  exact CompressedSource.holds_make hmake hdecompressed

theorem visible_make {region : List UInt8} {kind : Compression} {ratio : Nat}
    {source : CompressedSource} (hratio : 0 < ratio)
    (hmake : CompressedSource.make region kind ratio = .ok source)
    (hreadable : Readable (.compressed source)) :
    Visible (.compressed source) := by
  have hsound := sound_make hmake hreadable
  rcases CompressedSource.make_cases hmake with
    ⟨hstrategy, rfl⟩ | ⟨bytes, hbytes, rfl⟩
  · intro hzero
    have hregion : region = [] := by
      have hproduct : region.length * ratio = 0 := by
        simp only [size, Compression.estimatedSize, Size.mulSaturating,
          Size.maximum, Size.limit] at hzero
        omega
      rcases Nat.mul_eq_zero.mp hproduct with hlength | hnone
      · exact List.eq_nil_of_length_eq_zero hlength
      · omega
    subst hregion
    exact absurd hreadable (decompress_nil_of_estimate hstrategy _)
  · exact hsound.visible rfl

theorem Opened.sound {least : Nat} {source : Source}
    (hopened : source.Opened least) (hreadable : source.Readable) :
    source.Sound := by
  induction hopened with
  | file hsize => exact hsize
  | host bytes => trivial
  | device buffer => trivial
  | compressed hratio hmake => exact sound_make hmake hreadable
  | @sized source hopened ih =>
      have hsound :=
        ih (readable_of_content?_eq source.content?_exactSize hreadable)
      obtain ⟨next, hnext, hreads, -⟩ := hsound.exactSize
      rw [hnext]
      exact hreads.sound
  | @read source hopened offset size ih =>
      have hsound :=
        ih (readable_of_content?_eq (source.content?_hostRead offset size)
          hreadable)
      exact (hsound.reads_hostRead offset size).sound

theorem Opened.visible {least : Nat} {source : Source}
    (hopened : source.Opened least) (hleast : 0 < least)
    (hreadable : source.Readable) : source.Visible := by
  induction hopened with
  | file hsize => exact Sound.visible hsize rfl
  | host bytes => exact Sound.visible trivial rfl
  | device buffer => exact Sound.visible trivial rfl
  | compressed hratio hmake =>
      exact visible_make (Nat.lt_of_lt_of_le hleast hratio) hmake hreadable
  | @sized source hopened ih =>
      have hbefore :=
        readable_of_content?_eq source.content?_exactSize hreadable
      obtain ⟨next, hnext, hreads, -⟩ := (hopened.sound hbefore).exactSize
      rw [hnext]
      exact hreads.visible (ih hbefore)
  | @read source hopened offset size ih =>
      have hbefore :=
        readable_of_content?_eq (source.content?_hostRead offset size)
          hreadable
      exact ((hopened.sound hbefore).reads_hostRead offset size).visible
        (ih hbefore)

end Source

end JsonIntake
