import JsonIntake.Proofs.Source.Opened
import JsonIntake.Proofs.Source.Stream

/-!
# What a source knows about its content

An opened source knows a size or keeps content only if it has decompressed its
region before.  So where a size has been made exact, or bytes have been copied,
the source can be read.  A region that cannot be read has no content, and this
is known of no source: its size is an estimate for ever.
-/

namespace JsonIntake

namespace Source

theorem exactSize_of_exact {source : Source}
    (hexact : source.isSizeExact = true) :
    source.exactSize = (.ok source.size, source) := by
  cases source with
  | file source => rfl
  | host bytes => rfl
  | device buffer => rfl
  | compressed source =>
      have hknown : source.exact = true := hexact
      simp [exactSize, hknown, size]

theorem isSizeExact_copyTo {source : Source} (offset size : Nat)
    (target : Buffer) (hexact : source.isSizeExact = true) :
    (source.copyTo offset size target).2.isSizeExact = true := by
  unfold copyTo
  split
  · exact hexact
  · cases source with
    | file source => rfl
    | host bytes => rfl
    | device buffer => rfl
    | compressed source =>
        have hknown : source.exact = true := hexact
        simp only [hostRead, CompressedSource.hostRead]
        split
        · exact hknown
        · split
          · exact hknown
          · split
            · rfl
            · split <;> rfl

/-- Content is kept by a source only together with its size. -/
def KeepsSize : Source → Prop
  | .compressed source => source.kept.isSome = true → source.exact = true
  | _ => True

theorem Opened.keepsSize {least : Nat} {source : Source}
    (hopened : source.Opened least) : source.KeepsSize := by
  induction hopened with
  | file hsize => trivial
  | host bytes => trivial
  | device buffer => trivial
  | compressed hratio hmake =>
      rcases CompressedSource.make_cases hmake with ⟨-, rfl⟩ | ⟨_, -, rfl⟩
      · exact nofun
      · exact fun _ => rfl
  | @sized source hopened ih =>
      cases source with
      | file source => trivial
      | host bytes => trivial
      | device buffer => trivial
      | compressed source =>
          unfold exactSize CompressedSource.materialize
          dsimp only
          split
          · exact ih
          · split
            · exact ih
            · split
              · exact ih
              · exact fun _ => rfl
  | @read source hopened offset size ih =>
      cases source with
      | file source => trivial
      | host bytes => trivial
      | device buffer => trivial
      | compressed source =>
          unfold hostRead CompressedSource.hostRead
          dsimp only
          split
          · exact ih
          · split
            · exact ih
            · split
              · exact fun _ => rfl
              · split
                · exact fun _ => rfl
                · exact fun _ => rfl

theorem KeepsSize.isSizeExact {source known : Source} {size : Nat}
    (hkeeps : source.KeepsSize)
    (hsize : source.exactSize = (.ok size, known)) :
    known.isSizeExact = true := by
  by_cases hexact : source.isSizeExact = true
  · rw [exactSize_of_exact hexact] at hsize
    exact (Prod.mk.inj hsize).2 ▸ hexact
  · cases source with
    | file source => exact absurd rfl hexact
    | host bytes => exact absurd rfl hexact
    | device buffer => exact absurd rfl hexact
    | compressed source =>
        have hunknown : ¬ source.exact = true := hexact
        have hnothing : source.kept = none :=
          Option.not_isSome_iff_eq_none.mp (mt hkeeps hunknown)
        simp only [exactSize, if_neg hunknown, CompressedSource.materialize,
          hnothing] at hsize
        split at hsize
        · cases (Prod.mk.inj hsize).1
        · exact (Prod.mk.inj hsize).2 ▸ rfl

/-- Whatever is known of a region has come from its content. -/
def Grounded : Source → Prop
  | .compressed source =>
    source.exact = true ∨ source.kept.isSome = true →
      Readable (.compressed source)
  | _ => True

theorem readable_of_decompress {source : CompressedSource}
    {bytes : List UInt8}
    (hbytes : decompress source.kind source.region = .ok bytes) :
    Readable (.compressed source) := by
  rw [Readable, content, content?, hbytes]

theorem Opened.grounded {least : Nat} {source : Source}
    (hopened : source.Opened least) : source.Grounded := by
  induction hopened with
  | file hsize => trivial
  | host bytes => trivial
  | device buffer => trivial
  | compressed hratio hmake =>
      rcases CompressedSource.make_cases hmake with ⟨-, rfl⟩ |
        ⟨bytes, hbytes, rfl⟩
      · rintro (hexact | hkept)
        · exact absurd hexact nofun
        · exact absurd hkept nofun
      · exact fun _ => readable_of_decompress hbytes
  | @sized source hopened ih =>
      cases source with
      | file source => trivial
      | host bytes => trivial
      | device buffer => trivial
      | compressed source =>
          unfold exactSize CompressedSource.materialize
          dsimp only
          split
          · exact ih
          · split
            · exact ih
            · split
              · exact ih
              · next bytes hbytes =>
                  exact fun _ => readable_of_decompress hbytes
  | @read source hopened offset size ih =>
      cases source with
      | file source => trivial
      | host bytes => trivial
      | device buffer => trivial
      | compressed source =>
          unfold hostRead CompressedSource.hostRead
          dsimp only
          split
          · exact ih
          · split
            · exact ih
            · next bytes hbytes =>
                split
                · exact fun _ => readable_of_decompress hbytes
                · split
                  · exact fun _ => readable_of_decompress hbytes
                  · exact fun _ => readable_of_decompress hbytes

theorem Grounded.readable_of_exactSize {source known : Source} {size : Nat}
    (hgrounded : source.Grounded)
    (hsize : source.exactSize = (.ok size, known)) : source.Readable := by
  cases source with
  | file source => rfl
  | host bytes => rfl
  | device buffer => rfl
  | compressed source =>
      unfold exactSize CompressedSource.materialize at hsize
      dsimp only at hsize
      split at hsize
      · next hexact => exact hgrounded (.inl hexact)
      · split at hsize
        · next hkept => exact hgrounded (.inr (by rw [hkept]; rfl))
        · split at hsize
          · cases (Prod.mk.inj hsize).1
          · next bytes hbytes => exact readable_of_decompress hbytes

theorem Grounded.readable_of_copyTo {source after : Source}
    {offset size : Nat} {target : Buffer} {copied : Nat × Buffer}
    (hgrounded : source.Grounded)
    (hcopy : source.copyTo offset size target = (.ok copied, after)) :
    source.Readable := by
  cases source with
  | file source => rfl
  | host bytes => rfl
  | device buffer => rfl
  | compressed source =>
      have hdevice : supportsDeviceRead (.compressed source) = false := rfl
      simp only [copyTo, hdevice, Bool.false_eq_true, if_false, hostRead,
        CompressedSource.hostRead] at hcopy
      split at hcopy
      · next hkept => exact hgrounded (.inr (by rw [hkept]; rfl))
      · split at hcopy
        · cases (Prod.mk.inj hcopy).1
        · next bytes hbytes => exact readable_of_decompress hbytes

theorem Opened.mono {least fewer : Nat} {source : Source}
    (hopened : source.Opened least) (hle : fewer ≤ least) :
    source.Opened fewer := by
  induction hopened with
  | file hsize => exact .file hsize
  | host bytes => exact .host bytes
  | device buffer => exact .device buffer
  | compressed hratio hmake => exact .compressed (Nat.le_trans hle hratio) hmake
  | sized _ ih => exact .sized ih
  | read _ offset size ih => exact .read ih offset size

/-- A region that cannot be read has no content that could be missed. -/
theorem Opened.visible_of_pos {least : Nat} {source : Source}
    (hopened : source.Opened least) (hleast : 0 < least) :
    source.Visible := by
  by_cases hreadable : source.Readable
  · exact hopened.visible hleast hreadable
  · intro _
    unfold Readable at hreadable
    unfold content at hreadable ⊢
    cases hcontent : source.content? with
    | ok bytes => exact absurd (by rw [hcontent]) hreadable
    | error failure => rfl

end Source

namespace SourceSet

variable {set next : SourceSet}

theorem materialize_of_exact (hexact : set.Exact) :
    set.materialize = (set.totalSize, set) := by
  have hsources : ∀ sources : List Source,
      (∀ source ∈ sources, source.isSizeExact = true) →
      exactSources sources = (none, sources) := by
    intro sources hsources
    induction sources with
    | nil => rfl
    | cons source rest ih =>
        rw [List.forall_mem_cons] at hsources
        rw [exactSources, Source.exactSize_of_exact hsources.1,
          ih hsources.2]
  simp only [materialize, hsources set.sources hexact]

theorem exact_of_materialize {total : Nat}
    (hkeeps : ∀ source ∈ set.sources, source.KeepsSize)
    (hmaterialize : set.materialize = (.ok total, next)) : next.Exact := by
  have hsources : ∀ sources : List Source,
      (∀ source ∈ sources, source.KeepsSize) →
      (exactSources sources).1 = none →
      ∀ source ∈ (exactSources sources).2, source.isSizeExact = true := by
    intro sources hkeeps hnone
    induction sources with
    | nil => exact nofun
    | cons source rest ih =>
        rw [List.forall_mem_cons] at hkeeps
        unfold exactSources at hnone ⊢
        split at hnone
        · exact absurd hnone nofun
        · next size known hknown =>
            exact List.forall_mem_cons.mpr
              ⟨hkeeps.1.isSizeExact hknown, ih hkeeps.2 hnone⟩
  unfold materialize at hmaterialize
  dsimp only at hmaterialize
  split at hmaterialize
  · exact absurd (Prod.mk.inj hmaterialize).1 nofun
  · next hnone =>
      obtain rfl := (Prod.mk.inj hmaterialize).2
      exact hsources set.sources hkeeps hnone

theorem exact_copyTo (index offset size : Nat) (target : Buffer)
    (hexact : set.Exact) : (set.copyTo index offset size target).2.Exact := by
  unfold copyTo
  split
  · exact hexact
  · next source hsource =>
      intro other hother
      rcases List.mem_or_eq_of_mem_set hother with hold | rfl
      · exact hexact other hold
      · exact Source.isSizeExact_copyTo _ _ _
          (hexact source (List.mem_of_getElem? hsource))

theorem readable_of_exactSources {sources : List Source}
    (hgrounded : ∀ source ∈ sources, source.Grounded)
    (hnone : (exactSources sources).1 = none) :
    ∀ source ∈ sources, source.Readable := by
  induction sources with
  | nil => exact nofun
  | cons source rest ih =>
      rw [List.forall_mem_cons] at hgrounded
      unfold exactSources at hnone
      split at hnone
      · exact absurd hnone nofun
      · next size known hknown =>
          exact List.forall_mem_cons.mpr
            ⟨hgrounded.1.readable_of_exactSize hknown,
              ih hgrounded.2 hnone⟩

theorem readable_of_materialize {total : Nat}
    (hgrounded : ∀ source ∈ set.sources, source.Grounded)
    (hmaterialize : set.materialize = (.ok total, next)) :
    ∀ source ∈ set.sources, source.Readable := by
  unfold materialize at hmaterialize
  dsimp only at hmaterialize
  split at hmaterialize
  · exact absurd (Prod.mk.inj hmaterialize).1 nofun
  · next hnone => exact readable_of_exactSources hgrounded hnone

end SourceSet

end JsonIntake
