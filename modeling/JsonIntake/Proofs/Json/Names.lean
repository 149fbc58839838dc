import JsonIntake.Json.Value
import Mathlib.Data.List.Lex
import Mathlib.Tactic.SplitIfs

/-!
# Members in the order of their names

Names are ordered by their characters, which is the order of their UTF-8
bytes as well.  The members of an object are put in order as they are read,
so the order in which they are written does not matter.
-/

namespace JsonIntake.Json

/-! ## Names as bytes -/

def nameBytes (name : String) : List UInt8 := name.toByteArray.data.toList

section Names

variable {a b : String} {m n : Nat} {s t : List UInt8}

theorem nameBytes_eq (name : String) :
    nameBytes name = name.toList.flatMap String.utf8EncodeChar := by
  have hbytes : (String.ofList name.toList).toByteArray.data =
      (name.toList.flatMap String.utf8EncodeChar).toArray :=
    List.data_toByteArray
  rw [String.ofList_toList] at hbytes
  rw [nameBytes, hbytes]

theorem ofNat_cons_lt (hm : m < 256) (hn : n < 256) :
    UInt8.ofNat m :: s < UInt8.ofNat n :: t ↔ m < n ∨ m = n ∧ s < t := by
  rw [List.cons_lt_cons_iff, UInt8.lt_iff_toNat_lt, ← UInt8.toNat_inj,
    UInt8.toNat_ofNat_of_lt' hm, UInt8.toNat_ofNat_of_lt' hn]

/-- A smaller character has smaller bytes, whatever follows. -/
theorem utf8EncodeChar_append_lt {first second : Char} (hlt : first < second)
    (s t : List UInt8) :
    String.utf8EncodeChar first ++ s < String.utf8EncodeChar second ++ t := by
  have hnat : first.val.toNat < second.val.toNat := hlt
  have hvalid : second.val.toNat < 0x110000 := by
    rcases second.valid with h | h <;> omega
  unfold String.utf8EncodeChar
  dsimp only
  generalize first.val.toNat = m at *
  generalize second.val.toNat = n at *
  -- The digits to base 64: each is the remainder of the quotient before it.
  have hdigits : ∀ k, k / 4096 = k / 64 / 64 ∧ k / 262144 = k / 64 / 64 / 64 :=
    fun k => by omega
  have hstep : ∀ i k : Nat, i ≤ k → i / 64 < k / 64 ∨
      i / 64 = k / 64 ∧ i % 64 ≤ k % 64 := by omega
  have hlast := hstep m n (by omega)
  have hthird := hstep (m / 64) (n / 64) (by omega)
  have hsecond := hstep (m / 64 / 64) (n / 64 / 64) (by omega)
  simp only [hdigits]
  split_ifs <;>
    simp (disch := omega) only [List.cons_append, List.nil_append,
      ofNat_cons_lt] <;>
    omega

theorem flatMap_utf8EncodeChar_lt {chars others : List Char}
    (hlt : chars < others) :
    chars.flatMap String.utf8EncodeChar <
      others.flatMap String.utf8EncodeChar := by
  induction hlt with
  | @nil char chars =>
      cases hbytes : (char :: chars).flatMap String.utf8EncodeChar with
      | nil =>
          rw [List.flatMap_cons, List.append_eq_nil_iff] at hbytes
          exact absurd hbytes.1 String.utf8EncodeChar_ne_nil
      | cons byte bytes => exact .nil
  | rel hchar => exact utf8EncodeChar_append_lt hchar _ _
  | cons _ ih => exact List.Lex.append_left _ ih _

theorem nameBytes_lt (hlt : a < b) : nameBytes a < nameBytes b := by
  rw [nameBytes_eq, nameBytes_eq]
  exact flatMap_utf8EncodeChar_lt hlt

/-- The order of names is that of their bytes. -/
theorem nameBytes_lt_iff : nameBytes a < nameBytes b ↔ a < b := by
  constructor
  · intro hbytes
    refine String.not_le.mp fun hle => List.lt_asymm hbytes ?_
    refine nameBytes_lt (String.not_le.mp fun hge => ?_)
    rw [String.le_antisymm hle hge] at hbytes
    exact List.lt_irrefl _ hbytes
  · exact nameBytes_lt

end Names

/-! ## Members in order -/

/-- Members in the order of their names, and each name once. -/
abbrev InOrder {α : Type} (members : List (String × α)) : Prop :=
  members.Pairwise fun a b => a.1 < b.1

theorem InOrder.nodup {α : Type} {members : List (String × α)}
    (hmembers : InOrder members) : (members.map (·.1)).Nodup := by
  rw [List.Nodup, List.pairwise_map]
  apply hmembers.imp
  intro a b hlt heq
  exact String.lt_irrefl b.1 (heq ▸ hlt)

section Members

variable {name : String} {value : Value}
  {members written sorted : List (String × Value)}

theorem perm_insertMember (value : Value) (hname : name ∉ members.map (·.1)) :
    (Value.insertMember name value members).Perm
      ((name, value) :: members) := by
  induction members with
  | nil => exact .refl _
  | cons member rest ih =>
      rw [List.map_cons, List.mem_cons, not_or] at hname
      rw [Value.insertMember, if_neg hname.1]
      split
      · exact .refl _
      · exact ((ih hname.2).cons member).trans (.swap _ _ _)

theorem InOrder.insertMember (hmembers : InOrder members)
    (hname : name ∉ members.map (·.1)) :
    InOrder (Value.insertMember name value members) := by
  induction members with
  | nil => exact List.pairwise_singleton _ _
  | cons member rest ih =>
      obtain ⟨hfirst, hrest⟩ := List.pairwise_cons.mp hmembers
      rw [List.map_cons, List.mem_cons, not_or] at hname
      rw [Value.insertMember, if_neg hname.1]
      split
      · next hlt =>
          refine List.pairwise_cons.mpr ⟨?_, hmembers⟩
          rw [List.forall_mem_cons]
          exact ⟨hlt, fun other hother =>
            String.lt_trans hlt (hfirst other hother)⟩
      · next hlt =>
          refine List.pairwise_cons.mpr ⟨fun other hother => ?_,
            ih hrest hname.2⟩
          rw [(perm_insertMember value hname.2).mem_iff, List.mem_cons] at hother
          rcases hother with rfl | hother
          · refine String.not_le.mp fun hle => ?_
            exact hname.1 (String.le_antisymm hle (String.not_lt.mp hlt))
          · exact hfirst other hother

/-- Put members at their places, one after the other. -/
def insertMembers (members written : List (String × Value)) :
    List (String × Value) :=
  written.foldl
    (fun members member => Value.insertMember member.1 member.2 members)
    members

theorem InOrder.insertMembers (hmembers : InOrder members)
    (hnames : ((written ++ members).map (·.1)).Nodup) :
    InOrder (insertMembers members written) ∧
      (insertMembers members written).Perm (written ++ members) := by
  induction written generalizing members with
  | nil => exact ⟨hmembers, .refl _⟩
  | cons member rest ih =>
      have hname : member.1 ∉ members.map (·.1) := by
        rw [List.cons_append, List.map_cons, List.nodup_cons, List.map_append,
          List.mem_append] at hnames
        exact fun hin => hnames.1 (.inr hin)
      have hinserted := perm_insertMember member.2 hname
      have hnext := (hinserted.append_left rest).trans
        (List.perm_middle : (rest ++ member :: members).Perm _)
      obtain ⟨horder, hperm⟩ := ih (hmembers.insertMember hname)
        ((hnext.map _).nodup_iff.mpr hnames)
      exact ⟨horder, hperm.trans hnext⟩

/-- Written in any order, the members end up in that of their names. -/
theorem insertMembers_of_perm (hperm : written.Perm sorted)
    (hsorted : InOrder sorted) : insertMembers [] written = sorted := by
  have hnames : ((written ++ []).map Prod.fst).Nodup := by
    rw [List.append_nil]
    exact (hperm.map Prod.fst).nodup_iff.mpr hsorted.nodup
  obtain ⟨horder, hsame⟩ := InOrder.insertMembers .nil hnames
  rw [List.append_nil] at hsame
  refine (hsame.trans hperm).eq_of_pairwise ?_ horder hsorted
  intro a b _ _ hlt hgt
  exact absurd hlt (String.lt_asymm hgt)

end Members

end JsonIntake.Json
