import JsonIntake.Proofs.Records.Strict
import JsonIntake.Proofs.Table.Flat
import JsonIntake.Proofs.Table.Recovery

/-!
# Flat objects on lines

Flat objects are written one on a line, each as some strict text, with blank
lines anywhere.  If the objects are uniform, the lines become their table.
-/

namespace JsonIntake

open Json (Value)
open Grammar (StrictLiteral Text)

/-- Lines that write flat objects. -/
inductive FlatLines : List FlatObject → List (List UInt8) → Prop
  | nil : FlatLines [] []
  | blank {line : List UInt8} {objects : List FlatObject}
      {lines : List (List UInt8)}
      (hblank : ∀ byte ∈ line, isAsciiSpace byte = true) (hline : 10 ∉ line)
      (hrest : FlatLines objects lines) : FlatLines objects (line :: lines)
  | object {object : FlatObject} {text : Text StrictLiteral}
      {objects : List FlatObject} {lines : List (List UInt8)}
      (hvalue : text.value.Denotes (.object object.row))
      (hline : 10 ∉ text.bytes StrictLiteral.bytes)
      (hrest : FlatLines objects lines) :
      FlatLines (object :: objects) (text.bytes StrictLiteral.bytes :: lines)

/-! ## Nesting of flat objects -/

section Nesting

variable {tree : Grammar.Tree StrictLiteral} {value : Value}

theorem nesting_eq_zero (htree : tree.Denotes value)
    (hvalue : value.isNested = false) : tree.nesting = 0 := by
  cases htree with
  | scalar => rfl
  | string => rfl
  | _ => exact absurd hvalue nofun

theorem nesting_members_eq_zero {members : Grammar.Members StrictLiteral}
    {written : List (String × Value)} (hmembers : members.Denotes written)
    (hplain : ∀ member ∈ written, member.2.isNested = false) :
    members.nesting = 0 := by
  induction written generalizing members with
  | nil => cases hmembers
  | cons member written ih =>
      rw [List.forall_mem_cons] at hplain
      cases hmembers with
      | last _ htree => exact nesting_eq_zero htree hplain.1
      | cons _ htree hrest =>
          rw [Grammar.Members.nesting, nesting_eq_zero htree hplain.1,
            ih hrest hplain.2]
          rfl

theorem nesting_le_one {members : List (String × Value)}
    (htree : tree.Denotes (.object members))
    (hplain : ∀ member ∈ members, member.2.isNested = false) :
    tree.nesting ≤ 1 := by
  cases htree with
  | scalar hscalar => exact absurd hscalar nofun
  | emptyObject => exact Nat.le_refl 1
  | object hmembers hperm _ =>
      rw [Grammar.Tree.nesting, nesting_members_eq_zero hmembers
        fun member hmember => hplain member (hperm.mem_iff.mp hmember)]

theorem FlatObject.isNested_row (object : FlatObject) :
    ∀ member ∈ object.row, member.2.isNested = false := by
  intro member hmember
  obtain ⟨⟨name, plain⟩, -, rfl⟩ := List.mem_map.mp hmember
  cases plain <;> rfl

end Nesting

section FlatLines

variable {objects : List FlatObject} {lines : List (List UInt8)}
  {buffer : Buffer}

/-- The records of the lines are the objects. -/
theorem FlatLines.records (hlines : FlatLines objects lines) :
    (∀ line ∈ lines.flatMap (recordLines 10), isMalformed line = false) ∧
      (lines.flatMap (recordLines 10)).map lineMembers =
        objects.map (·.row) := by
  induction hlines with
  | nil => exact ⟨fun _ hline => absurd hline List.not_mem_nil, rfl⟩
  | blank hblank hline _ ih =>
      rw [List.flatMap_cons, recordLines_blank hblank hline, List.nil_append]
      exact ih
  | object hvalue hline _ ih =>
      have hparse := parse_tree hvalue
        (Nat.le_trans (nesting_le_one hvalue (FlatObject.isNested_row _))
          (by decide))
      rw [List.flatMap_cons, recordLines_text hvalue hline,
        List.singleton_append, List.forall_mem_cons, List.map_cons,
        List.map_cons, ih.2]
      refine ⟨⟨?_, ih.1⟩, ?_⟩
      · rw [isMalformed, hparse]
      · rw [lineMembers, hparse]

theorem flatTable_of_empty (hempty : ∀ object ∈ objects, object.members = []) :
    flatTable objects = ⟨objects.length, []⟩ := by
  have hnames : objects.flatMap (·.names) = [] := by
    rw [List.flatMap_eq_nil_iff]
    intro object hobject
    rw [FlatObject.names, hempty object hobject]
    rfl
  rw [flatTable, hnames]
  rfl

/-- Lines of uniform flat objects become their table, and no record is
malformed.  Objects without members are rows without columns. -/
theorem tokenize_flatLines (huniform : Uniform objects)
    (hlines : FlatLines objects lines)
    (hbuffer : buffer.toList = [10].intercalate lines) :
    tokenize ⟨true, 10, .fail, []⟩ buffer = .ok ⟨flatTable objects, 0⟩ ∧
      ((∀ object ∈ objects, object.members = []) →
        flatTable objects = ⟨objects.length, []⟩) := by
  refine ⟨?_, flatTable_of_empty⟩
  obtain ⟨hsound, hrows⟩ := hlines.records
  obtain ⟨members, htable⟩ := tabulated_flatTable huniform
  have hrecords : recordLines 10 buffer.toList =
      lines.flatMap (recordLines 10) := by
    rw [hbuffer]
    exact (linewise_recordLines 10).intercalate lines
  have hlist : RecordList.ofLines .fail 10 buffer.toList = .ok
      ⟨(objects.map fun object => some object.row).reverse, 0⟩ := by
    rw [RecordList.ofLines, hrecords, RecordList.addLines_fail hsound]
    have hsome := congrArg (List.map some) hrows
    rw [List.map_map, List.map_map] at hsome
    exact congrArg (fun rows => Except.ok (RecordList.mk (List.reverse rows) 0))
      hsome
  refine (tokenize_eq_ok rfl rfl).mpr ⟨_, members, hlist, ?_, rfl⟩
  rw [RecordList.rows, RecordList.toList, List.reverse_reverse, List.map_map]
  exact htable

/-- Names out of order, one of them escaped, and a blank line. -/
theorem tokenize_flatLines_escaped :
    let written := "\x7b\"b\": -1,\"\\u0061\":\"x\"\x7d\n \n\x7b\"b\":null\x7d"
    tokenize ⟨true, 10, .fail, []⟩ (.ofList written.toUTF8.toList) =
      .ok ⟨⟨2, [⟨⟨"a", .utf8, true⟩, [.text "x", .null]⟩,
        ⟨⟨"b", .int64, true⟩, [.integer (-1), .null]⟩]⟩, 0⟩ := by
  intro written
  let first : FlatObject :=
    ⟨[("a", .text "x"), ("b", .integer (-1))], by decide⟩
  let second : FlatObject := ⟨[("b", .null)], List.pairwise_singleton _ _⟩
  have huniform : Uniform [first, second] := by
    refine uniform_iff.mpr
      ⟨fun name => if name = "a" then .utf8 else .int64, ?_⟩
    unfold Shape.Follows
    decide
  have htable : flatTable [first, second] =
      ⟨2, [⟨⟨"a", .utf8, true⟩, [.text "x", .null]⟩,
        ⟨⟨"b", .int64, true⟩, [.integer (-1), .null]⟩]⟩ := rfl
  -- The texts of both objects.
  let tight := Json.noBlank
  let space : Grammar.Blank := ⟨[32], List.all_eq_true.mp rfl⟩
  let key : StrictLiteral :=
    ⟨[.plain 98 (by decide) (by decide) (by decide)]⟩
  let escaped : StrictLiteral :=
    ⟨[.unicode 48 48 54 49 (List.all_eq_true.mp rfl)]⟩
  let content : StrictLiteral :=
    ⟨[.plain 120 (by decide) (by decide) (by decide)]⟩
  let one : Grammar.Numeral :=
    ⟨true, ⟨[49], List.all_eq_true.mp rfl, by decide⟩, by decide, none, none⟩
  have hkey : key.Denotes "b" := .single rfl rfl
  have hescaped : escaped.Denotes "a" := .unit _ (by decide) .nil
  have hcontent : content.Denotes "x" := .single rfl rfl
  have hone : one.Denotes (-1) := ⟨rfl, rfl, rfl, rfl, by decide, by decide⟩
  let firstText : Text StrictLiteral :=
    ⟨tight, .object (.cons tight key tight space (.scalar (.number one)) tight
      (.last tight escaped tight tight (.string content) tight)), tight⟩
  let secondText : Text StrictLiteral :=
    ⟨tight, .object (.last tight key tight tight (.scalar .null) tight), tight⟩
  have hfirst : firstText.value.Denotes (.object first.row) :=
    .object (.cons hkey (.scalar (.number hone))
      (.last hescaped (.string hcontent))) (.swap _ _ _) (by decide)
  have hsecond : secondText.value.Denotes (.object second.row) :=
    .object (.last hkey (.scalar .null)) (.refl _)
      (List.pairwise_singleton _ _)
  have hlines : FlatLines [first, second]
      [firstText.bytes StrictLiteral.bytes, [32],
        secondText.bytes StrictLiteral.bytes] :=
    .object hfirst (by decide) (.blank (List.all_eq_true.mp rfl) (by decide)
      (.object hsecond (by decide) .nil))
  have hbytes : written.toUTF8.toList =
      [10].intercalate [firstText.bytes StrictLiteral.bytes, [32],
        secondText.bytes StrictLiteral.bytes] := by
    decide +kernel
  rw [hbytes, ← htable]
  exact (tokenize_flatLines huniform hlines (Buffer.toList_ofList _)).1

end FlatLines

end JsonIntake
