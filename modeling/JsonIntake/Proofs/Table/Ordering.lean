import JsonIntake.Proofs.Table.Widening
import Mathlib.Order.Bounds.Basic

/-!
# Column types by widening

Column types are ordered by widening: nulls are below every type and integers
below floating point.  Types merge if they have an upper bound, and then they
merge to the least one, whatever their order.
-/

namespace JsonIntake

namespace ColumnType

/-- Types are ordered by widening. -/
instance : PartialOrder ColumnType where
  le := Widens
  le_refl := .refl
  le_trans _ _ _ := .trans
  le_antisymm a b hab hba := by
    cases hab with
    | refl => rfl
    | null =>
        cases hba with
        | refl => rfl
        | null => rfl
    | int64 => cases hba

variable {a b type : ColumnType} {types : List ColumnType}

theorem null_le (type : ColumnType) : null ≤ type := Widens.null type

theorem le_iff : a ≤ b ↔ a = b ∨ a = .null ∨ (a = .int64 ∧ b = .float64) := by
  constructor
  · intro hwidens
    cases hwidens with
    | refl => exact .inl rfl
    | null => exact .inr (.inl rfl)
    | int64 => exact .inr (.inr ⟨rfl, rfl⟩)
  · rintro (rfl | rfl | ⟨rfl, rfl⟩)
    · exact .refl _
    · exact .null _
    · exact .int64

/-- What lies below one type is a chain. -/
theorem le_total_of_le (ha : a ≤ type) (hb : b ≤ type) : a ≤ b ∨ b ≤ a := by
  cases ha with
  | refl => exact .inr hb
  | null => exact .inl (null_le b)
  | int64 =>
      cases hb with
      | refl => exact .inl .int64
      | null => exact .inr (null_le _)
      | int64 => exact .inl (.refl _)

theorem join?_of_le (hle : a ≤ b) : join? a b = some b := by
  cases hle with
  | refl => simp [join?]
  | null => by_cases hnull : b = .null <;> simp [join?, hnull]
  | int64 => decide

theorem join?_of_ge (hle : b ≤ a) : join? a b = some a := by
  cases hle with
  | refl => simp [join?]
  | null => simp [join?]
  | int64 => decide

/-- The common type of two types is their least upper bound. -/
theorem join?_eq_some_iff : join? a b = some type ↔ IsLUB {a, b} type := by
  constructor
  · intro hjoin
    obtain ⟨ha, hb⟩ := widens_of_join? hjoin
    refine ⟨by rintro _ (rfl | rfl) <;> assumption, ?_⟩
    intro bound hbound
    have hleft : a ≤ bound := hbound (.inl rfl)
    have hright : b ≤ bound := hbound (.inr rfl)
    rcases le_total_of_le hleft hright with hle | hle
    · rw [join?_of_le hle] at hjoin
      cases hjoin
      exact hright
    · rw [join?_of_ge hle] at hjoin
      cases hjoin
      exact hleft
  · intro hleast
    have hleft : a ≤ type := hleast.1 (.inl rfl)
    have hright : b ≤ type := hleast.1 (.inr rfl)
    rcases le_total_of_le hleft hright with hle | hle
    · have hbound : type ≤ b := hleast.2 (by
        rintro _ (rfl | rfl)
        · exact hle
        · exact le_refl _)
      rw [join?_of_le hle, le_antisymm hbound hright]
    · have hbound : type ≤ a := hleast.2 (by
        rintro _ (rfl | rfl)
        · exact le_refl _
        · exact hle)
      rw [join?_of_ge hle, le_antisymm hbound hleft]

/-! ## Several types -/

/-- Apart from nulls the types are all the same, or all of them numbers. -/
def Mergeable (types : List ColumnType) : Prop :=
  (∃ common, ∀ type ∈ types, type ≠ .null → type = common) ∨
    ∀ type ∈ types, type ≠ .null → type = .int64 ∨ type = .float64

/-- Floating point beside integers, and else the first type that is not
null, if there is one. -/
def mergedType (types : List ColumnType) : ColumnType :=
  if .int64 ∈ types ∧ .float64 ∈ types then .float64
  else (types.find? fun type => type ≠ .null).getD .null

/-- Null if all types are, floating point if it is there beside integers, and
the common type otherwise. -/
structure IsMerged (types : List ColumnType) (merged : ColumnType) :
    Prop where
  null : (∀ type ∈ types, type = .null) → merged = .null
  float64 : .int64 ∈ types → .float64 ∈ types → merged = .float64
  common : ¬ (.int64 ∈ types ∧ .float64 ∈ types) →
    ∀ type ∈ types, type ≠ .null → merged = type

theorem bddAbove_iff_mergeable :
    BddAbove {type | type ∈ types} ↔ Mergeable types := by
  constructor
  · rintro ⟨bound, hbound⟩
    by_cases hfloat : bound = .float64
    · subst hfloat
      refine .inr fun type htype hnull => ?_
      rcases le_iff.mp (hbound htype) with heq | heq | ⟨heq, -⟩
      · exact .inr heq
      · exact absurd heq hnull
      · exact .inl heq
    · refine .inl ⟨bound, fun type htype hnull => ?_⟩
      rcases le_iff.mp (hbound htype) with heq | heq | ⟨-, heq⟩
      · exact heq
      · exact absurd heq hnull
      · exact absurd heq hfloat
  · rintro (⟨common, hcommon⟩ | hnumbers)
    · refine ⟨common, fun type htype => ?_⟩
      by_cases hnull : type = .null
      · exact hnull ▸ null_le common
      · exact le_of_eq (hcommon type htype hnull)
    · refine ⟨.float64, fun type htype => ?_⟩
      by_cases hnull : type = .null
      · exact hnull ▸ null_le _
      · rcases hnumbers type htype hnull with rfl | rfl
        · exact .int64
        · exact .refl _

theorem isLUB_mergedType (hmerge : Mergeable types) :
    IsLUB {type | type ∈ types} (mergedType types) := by
  obtain ⟨bound, hbound⟩ := bddAbove_iff_mergeable.mpr hmerge
  unfold mergedType
  split
  · next hboth =>
      refine IsGreatest.isLUB ⟨hboth.2, fun type htype => ?_⟩
      have hfloat : bound = .float64 := by
        rcases le_iff.mp (hbound hboth.2) with heq | heq | ⟨heq, -⟩
        · exact heq.symm
        · exact absurd heq nofun
        · exact absurd heq nofun
      exact hfloat ▸ hbound htype
  · next hboth =>
      cases hfind : types.find? fun type => type ≠ .null with
      | none =>
          refine ⟨fun type htype => ?_, fun _ _ => null_le _⟩
          have hnull := List.find?_eq_none.mp hfind type htype
          exact le_of_eq (by simpa using hnull)
      | some first =>
          have hfirst : first ∈ types := List.mem_of_find?_eq_some hfind
          have hnull : first ≠ .null := by simpa using List.find?_some hfind
          refine IsGreatest.isLUB ⟨hfirst, fun type htype => ?_⟩
          -- Types under a common bound are a chain, so another one can only
          -- lie above as floating point above integers.
          rcases le_total_of_le (hbound htype) (hbound hfirst) with hle | hle
          · exact hle
          · rcases le_iff.mp hle with heq | heq | ⟨hint, hfloat⟩
            · exact le_of_eq heq.symm
            · exact absurd heq hnull
            · exact absurd ⟨hint ▸ hfirst, hfloat ▸ htype⟩ hboth

theorem isMerged_mergedType (hmerge : Mergeable types) :
    IsMerged types (mergedType types) := by
  have hleast := isLUB_mergedType hmerge
  constructor
  · intro hnull
    have hbound : null ∈ upperBounds {type | type ∈ types} :=
      fun type htype => le_of_eq (hnull type htype)
    exact le_antisymm (hleast.2 hbound) (null_le _)
  · intro hint hfloat
    rw [mergedType, if_pos ⟨hint, hfloat⟩]
  · intro hboth type htype hnull
    have hle : type ≤ mergedType types := hleast.1 htype
    rw [mergedType, if_neg hboth] at hle ⊢
    cases hfind : types.find? fun type => type ≠ .null with
    | none =>
        have hother := List.find?_eq_none.mp hfind type htype
        exact absurd (by simpa using hother) hnull
    | some first =>
        have hfirst : first ∈ types := List.mem_of_find?_eq_some hfind
        rw [hfind] at hle
        rcases le_iff.mp hle with heq | heq | ⟨hint, hfloat⟩
        · exact heq.symm
        · exact absurd heq hnull
        · have hlast : first = .float64 := hfloat
          exact absurd ⟨hint ▸ htype, hlast ▸ hfirst⟩ hboth

/-- Which types there are decides, not their order. -/
theorem mergedType_congr {others : List ColumnType}
    (hsame : ∀ type, type ∈ types ↔ type ∈ others)
    (hmerge : Mergeable types) : mergedType types = mergedType others := by
  have hset : {type | type ∈ types} = {type | type ∈ others} :=
    Set.ext hsame
  have hother : Mergeable others := by
    rw [← bddAbove_iff_mergeable, ← hset, bddAbove_iff_mergeable]
    exact hmerge
  have hleast := isLUB_mergedType hmerge
  rw [hset] at hleast
  exact hleast.unique (isLUB_mergedType hother)

/-- One more type merges if it joins with what the others merge to. -/
theorem join?_mergedType_iff (hmerge : Mergeable types)
    (found type : ColumnType) :
    join? (mergedType types) found = some type ↔
      Mergeable (types ++ [found]) ∧ type = mergedType (types ++ [found]) := by
  have hbounds : upperBounds {mergedType types, found} =
      upperBounds {type | type ∈ types ++ [found]} := by
    have hset : {type | type ∈ types ++ [found]} =
        {type | type ∈ types} ∪ {found} := by
      ext type
      simp [or_comm]
    rw [hset, upperBounds_union, (isLUB_mergedType hmerge).upperBounds_eq,
      upperBounds_insert, upperBounds_singleton]
  have hleast : ∀ type, IsLUB {mergedType types, found} type ↔
      IsLUB {type | type ∈ types ++ [found]} type := by
    intro type
    unfold IsLUB
    rw [hbounds]
  rw [join?_eq_some_iff, hleast]
  constructor
  · intro hlub
    have hmerged : Mergeable (types ++ [found]) :=
      bddAbove_iff_mergeable.mp ⟨type, hlub.1⟩
    exact ⟨hmerged, hlub.unique (isLUB_mergedType hmerged)⟩
  · rintro ⟨hmerged, rfl⟩
    exact isLUB_mergedType hmerged

theorem mergedType_singleton (type : ColumnType) :
    mergedType [type] = type := by
  by_cases hnull : type = .null
  · subst hnull
    decide
  · have hboth : ¬ (int64 ∈ [type] ∧ float64 ∈ [type]) := by
      simp only [List.mem_singleton]
      rintro ⟨rfl, hfloat⟩
      exact absurd hfloat nofun
    rw [mergedType, if_neg hboth]
    simp [hnull]

end ColumnType

end JsonIntake
