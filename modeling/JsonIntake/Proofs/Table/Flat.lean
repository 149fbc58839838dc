import JsonIntake.Proofs.Json.Meaning
import JsonIntake.Proofs.Json.Names
import JsonIntake.Proofs.Table.Layout

/-!
# Tables of flat objects

A value of a flat object is null, a boolean, an integer of 64 bits or a
string.  If the values of each name are of one kind, the table of flat objects
has a column of that kind for each name, and in it the value of every object.
-/

namespace JsonIntake

open Json (Value)

/-- A value of a flat object. -/
inductive Plain where
  | null
  | boolean (value : Bool)
  | integer (value : Int64)
  | text (value : String)

namespace Plain

def value : Plain → Value
  | .null => .null
  | .boolean value => .boolean value
  | .integer value => .number (.ofInt value.toInt)
  | .text value => .text value

def cell : Plain → Cell
  | .null => .null
  | .boolean value => .boolean value
  | .integer value => .integer value.toInt
  | .text value => .text value

/-- The kind of a value; null has none. -/
def kind? : Plain → Option ScalarKind
  | .null => none
  | .boolean _ => some .boolean
  | .integer _ => some .int64
  | .text _ => some .utf8

end Plain

/-- An object of plain values, with its names in the order of their bytes. -/
structure FlatObject where
  members : List (String × Plain)
  sorted : members.Pairwise fun a b =>
    Json.nameBytes a.1 < Json.nameBytes b.1

namespace FlatObject

def names (object : FlatObject) : List String := object.members.map (·.1)

/-- The value of a name; null if there is none. -/
def get (object : FlatObject) (name : String) : Plain :=
  ((object.members.find? fun member => member.1 == name).map (·.2)).getD .null

def row (object : FlatObject) : List (String × Value) :=
  object.members.map fun member => (member.1, member.2.value)

end FlatObject

/-- The kind of the first value of a name that has one. -/
def kindOf? (objects : List FlatObject) (name : String) : Option ScalarKind :=
  objects.findSome? fun object => (object.get name).kind?

/-- The values of each name are of one kind, or null. -/
def Uniform (objects : List FlatObject) : Prop :=
  ∀ name, ∃ kind, ∀ object ∈ objects,
    ∀ found ∈ (object.get name).kind?, found = kind

/-- One row for each object and one column for each name, in the order in
which the names appear. -/
def flatTable (objects : List FlatObject) : Table :=
  { rows := objects.length
    columns := (freshNames [] (objects.flatMap (·.names))).map fun name =>
      { field :=
          { name
            type := ((kindOf? objects name).map (·.columnType)).getD .null
            nullable := true }
        cells := objects.map fun object => (object.get name).cell } }

/-! ## Shapes of plain values -/

namespace Shape

/-- The shape of values of a kind, or of nulls only. -/
def ofKind? : Option ScalarKind → Shape
  | none => .unknown
  | some kind => .scalar (some kind)

theorem columnType_ofKind? (kind : Option ScalarKind) :
    (ofKind? kind).columnType = (kind.map (·.columnType)).getD .null := by
  cases kind <;> rfl

theorem ofValue?_plain (plain : Plain) :
    ofValue? plain.value = some (ofKind? plain.kind?) := by
  cases plain with
  | integer value =>
      cases hvalue : value.toInt with
      | ofNat size =>
          have hhigh := value.toInt_lt
          rw [hvalue] at hhigh
          have hsmall : size < Size.half := Int.ofNat_lt.mp hhigh
          simp [Plain.value, hvalue, Json.Number.ofInt, ofValue?,
            scalarKind?, hsmall, Plain.kind?, ofKind?]
      | negSucc size =>
          rw [Plain.value, hvalue]
          rfl
  | _ => rfl

theorem join?_ofKind? {held found : Option ScalarKind}
    (hsame : ∀ kind ∈ held, ∀ other ∈ found, kind = other) :
    join? (ofKind? held) (ofKind? found) = some (ofKind? (held.or found)) := by
  cases held with
  | none => exact unknown_join? _
  | some kind =>
      cases found with
      | none => exact join?_unknown _
      | some other =>
          obtain rfl := hsame kind rfl other rfl
          cases kind <;> rfl

/-- The kind of the first of some members that has a name and a kind. -/
def memberKind? (name : String) (members : List (String × Plain)) :
    Option ScalarKind :=
  members.findSome? fun member =>
    if member.1 = name then member.2.kind? else none

/-- Every member is null or of the kind that its name goes with. -/
def Follows (kinds : String → ScalarKind) (members : List (String × Plain)) :
    Prop :=
  ∀ member ∈ members, ∀ kind ∈ member.2.kind?, kind = kinds member.1

/-- What is held is what the members seen so far come to. -/
def Recorded (seen : List (String × Plain)) (held : List (String × Shape)) :
    Prop :=
  ∀ name, shapeOf name held = ofKind? (memberKind? name seen)

section Members

variable {kinds : String → ScalarKind} {seen fresh : List (String × Plain)}
  {held : List (String × Shape)} {member : String × Plain} {name : String}
  {kind : ScalarKind}

theorem memberKind?_concat (seen : List (String × Plain))
    (member : String × Plain) :
    memberKind? name (seen ++ [member]) = (memberKind? name seen).or
      (if member.1 = name then member.2.kind? else none) := by
  rw [memberKind?, List.findSome?_append, List.findSome?_singleton]
  rfl

theorem Follows.eq_of_memberKind? (hseen : Follows kinds seen)
    (hkind : memberKind? name seen = some kind) : kind = kinds name := by
  obtain ⟨member, hmember, hfound⟩ := List.exists_of_findSome?_eq_some hkind
  by_cases hname : member.1 = name
  · rw [if_pos hname] at hfound
    rw [hseen member hmember kind hfound, hname]
  · rw [if_neg hname] at hfound
    exact absurd hfound nofun

theorem put?_plain (hmembers : Follows kinds (seen ++ [member]))
    (hheld : Recorded seen held) :
    ∃ next, put? member.1 (ofKind? member.2.kind?) held = some next ∧
      Recorded (seen ++ [member]) next := by
  have hseen : Follows kinds seen :=
    fun other hother => hmembers other (List.mem_append_left _ hother)
  have hsame : ∀ kind ∈ memberKind? member.1 seen,
      ∀ other ∈ member.2.kind?, kind = other := by
    intro kind hkind other hother
    rw [hseen.eq_of_memberKind? hkind, hmembers member (by simp) other hother]
  have hjoin := join?_ofKind? hsame
  rw [← hheld] at hjoin
  refine ⟨_, congrArg (Option.map _) hjoin, fun name => ?_⟩
  rw [memberKind?_concat]
  by_cases hname : member.1 = name
  · subst hname
    rw [shapeOf_assign_self, if_pos rfl]
  · rw [shapeOf_assign_of_ne hname, if_neg hname, Option.or_none, hheld]

theorem addMembers?_plain (hmembers : Follows kinds (seen ++ fresh))
    (hheld : Recorded seen held) :
    ∃ out, addMembers? held
        (fresh.map fun member => (member.1, member.2.value)) = some out ∧
      Recorded (seen ++ fresh) out := by
  -- Each member moves on to those that have been seen.
  induction fresh generalizing seen held with
  | nil =>
      rw [List.append_nil]
      exact ⟨held, addMembers?_nil held, hheld⟩
  | cons member fresh ih =>
      rw [List.append_cons] at hmembers ⊢
      obtain ⟨next, hput, hnext⟩ := put?_plain
        (fun other hother => hmembers other (List.mem_append_left _ hother))
        hheld
      obtain ⟨out, hout, hrecorded⟩ := ih hmembers hnext
      refine ⟨out, ?_, hrecorded⟩
      rw [List.map_cons, addMembers?_cons_eq, ofValue?_plain, Option.bind_some,
        hput, Option.bind_some, hout]

end Members

end Shape

/-! ## Flat objects as rows -/

namespace FlatObject

variable {object : FlatObject} {name : String} {plain : Plain}

theorem inOrder (object : FlatObject) : Json.InOrder object.members :=
  object.sorted.imp fun hlt => Json.nameBytes_lt_iff.mp hlt

theorem get_of_mem (hmember : (name, plain) ∈ object.members) :
    object.get name = plain := by
  have hnames := object.inOrder.nodup
  unfold get
  generalize object.members = members at *
  induction members with
  | nil => exact absurd hmember List.not_mem_nil
  | cons member members ih =>
      rw [List.map_cons, List.nodup_cons] at hnames
      rcases List.mem_cons.mp hmember with rfl | hrest
      · rw [List.find?_cons_of_pos (by simp)]
        rfl
      · have hin : name ∈ members.map (·.1) := List.mem_map_of_mem hrest
        have hne : member.1 ≠ name := fun heq => hnames.1 (heq ▸ hin)
        rw [List.find?_cons_of_neg (by simpa using hne)]
        exact ih hrest hnames.2

theorem memberKind?_members (object : FlatObject) (name : String) :
    Shape.memberKind? name object.members = (object.get name).kind? := by
  -- A name occurs once, so its first member is its only one with a kind.
  cases hkind : Shape.memberKind? name object.members with
  | some kind =>
      obtain ⟨member, hmember, hfound⟩ :=
        List.exists_of_findSome?_eq_some hkind
      split at hfound
      · next hname =>
          subst hname
          rw [object.get_of_mem hmember, hfound]
      · exact absurd hfound nofun
  | none =>
      rw [Shape.memberKind?, List.findSome?_eq_none_iff] at hkind
      unfold get
      cases hfind : object.members.find? fun member => member.1 == name with
      | none => rfl
      | some member =>
          have hname := List.find?_some hfind
          have hnone := hkind member (List.mem_of_find?_eq_some hfind)
          rw [if_pos (by simpa using hname)] at hnone
          exact hnone.symm

theorem lookup?_row (object : FlatObject) (name : String) :
    (Value.lookup? name object.row).getD .null = (object.get name).value := by
  have hfind : object.row.find? (fun member => member.1 == name) =
      (object.members.find? fun member => member.1 == name).map
        fun member => (member.1, member.2.value) := by
    rw [row, List.find?_map]
    rfl
  rw [Value.lookup?, hfind, get]
  cases object.members.find? fun member => member.1 == name <;> rfl

end FlatObject

section Tables

variable {objects : List FlatObject} {name : String}

theorem memberKind?_flatMap (objects : List FlatObject) (name : String) :
    Shape.memberKind? name (objects.flatMap (·.members)) =
      kindOf? objects name := by
  induction objects with
  | nil => rfl
  | cons object objects ih =>
      have hfirst := object.memberKind?_members name
      unfold Shape.memberKind? kindOf? at *
      rw [List.flatMap_cons, List.findSome?_append, hfirst, ih,
        List.findSome?_cons]
      cases (object.get name).kind? <;> rfl

theorem flatten_rows (objects : List FlatObject) :
    (objects.map (·.row)).flatten = (objects.flatMap (·.members)).map
      fun member => (member.1, member.2.value) := by
  rw [List.map_flatMap]
  rfl

theorem keysOf_rows (objects : List FlatObject) :
    keysOf (objects.map (·.row)) = objects.flatMap (·.names) := by
  rw [keysOf, List.flatMap_map]
  refine List.flatMap_congr fun object _ => ?_
  rw [FlatObject.row, List.map_map]
  rfl

theorem valuesOf_rows (objects : List FlatObject) (name : String) :
    Shape.valuesOf name (objects.map (·.row)) =
      (objects.map fun object => object.get name).map Plain.value := by
  unfold Shape.valuesOf Cell.project
  rw [List.map_map, List.map_map, List.map_map]
  exact List.map_congr_left fun object _ => object.lookup?_row name

/-- Objects are uniform if each name goes with one kind. -/
theorem uniform_iff :
    Uniform objects ↔
      ∃ kinds, Shape.Follows kinds (objects.flatMap (·.members)) := by
  constructor
  · intro huniform
    choose kinds hkinds using huniform
    refine ⟨kinds, fun member hmember kind hkind => ?_⟩
    obtain ⟨object, hobject, hin⟩ := List.mem_flatMap.mp hmember
    refine hkinds member.1 object hobject kind ?_
    rw [object.get_of_mem hin]
    exact hkind
  · rintro ⟨kinds, hkinds⟩ name
    refine ⟨kinds name, fun object hobject found hfound => ?_⟩
    have hmembers : Shape.Follows kinds object.members :=
      fun member hmember =>
        hkinds member (List.mem_flatMap.mpr ⟨object, hobject, hmember⟩)
    rw [← object.memberKind?_members] at hfound
    exact hmembers.eq_of_memberKind? hfound

theorem addRows?_rows (huniform : Uniform objects) :
    ∃ members, Shape.addRows? [] (objects.map (·.row)) = some members ∧
      ∀ name, Shape.shapeOf name members =
        Shape.ofKind? (kindOf? objects name) := by
  obtain ⟨kinds, hkinds⟩ := uniform_iff.mp huniform
  have hall : Shape.Follows kinds ([] ++ objects.flatMap (·.members)) := hkinds
  have hnone : Shape.Recorded [] [] := fun _ => rfl
  obtain ⟨members, hmembers, hrecorded⟩ := Shape.addMembers?_plain hall hnone
  refine ⟨members, ?_, fun name => ?_⟩
  · rw [Shape.addRows?_eq_flatten, flatten_rows, hmembers]
  · rw [hrecorded, List.nil_append, memberKind?_flatMap]

theorem integerOfNumber?_ofInt (value : Int64) :
    Cell.integerOfNumber? .int64 (.ofInt value.toInt) = some value.toInt := by
  have hfit : IntegerType.fit? .int64 value.toInt = some value.toInt :=
    if_pos ⟨value.le_toInt, Int.le_of_lt_add_one value.toInt_lt⟩
  cases hvalue : value.toInt with
  | ofNat size =>
      rw [hvalue] at hfit
      exact hfit
  | negSucc size =>
      rw [hvalue] at hfit
      exact hfit

theorem decodeColumn_plain {values : List Plain} {kind : Option ScalarKind}
    (hvalues : ∀ plain ∈ values, ∀ found ∈ plain.kind?, kind = some found) :
    Cell.decodeColumn (Shape.ofKind? kind).columnType
        (values.map Plain.value) = .ok (values.map Plain.cell) := by
  rw [Cell.decodeColumn_iff, List.forall₂_map_left_iff,
    List.forall₂_map_right_iff, List.forall₂_same]
  intro plain hplain
  have hkind := hvalues plain hplain
  cases plain with
  | null => exact Cell.decodeColumn_replicate_null _ 1
  | boolean value =>
      rw [hkind .boolean rfl]
      rfl
  | integer value =>
      rw [hkind .int64 rfl]
      refine Cell.decodeColumn_scalar.mpr (.cons ?_ .nil)
      rw [Plain.value, Cell.ofScalar, Cell.ofNumeric,
        integerOfNumber?_ofInt]
      rfl
  | text value =>
      rw [hkind .utf8 rfl]
      rfl

/-- The values of a name are of the kind of its column. -/
theorem Uniform.kindOf?_eq (huniform : Uniform objects) :
    ∀ plain ∈ objects.map (·.get name),
      ∀ found ∈ plain.kind?, kindOf? objects name = some found := by
  intro plain hplain found hfound
  obtain ⟨object, hobject, rfl⟩ := List.mem_map.mp hplain
  obtain ⟨kind, hkind⟩ := huniform name
  cases hfirst : kindOf? objects name with
  | none =>
      have hnone := List.findSome?_eq_none_iff.mp hfirst object hobject
      rw [hnone] at hfound
      exact absurd hfound nofun
  | some first =>
      obtain ⟨other, hother, hown⟩ := List.exists_of_findSome?_eq_some hfirst
      rw [hkind object hobject found hfound, hkind other hother first hown]

theorem tabulated_flatTable (huniform : Uniform objects) :
    ∃ members,
      Table.Tabulated (objects.map (·.row)) members (flatTable objects) := by
  obtain ⟨members, hmembers, hshapes⟩ := addRows?_rows huniform
  have hnames := Shape.names_addRows? hmembers
  rw [Shape.names_nil, List.nil_append, keysOf_rows] at hnames
  have htype : ∀ name, Shape.typeOf name members =
      (Shape.ofKind? (kindOf? objects name)).columnType :=
    fun name => congrArg Shape.columnType (hshapes name)
  refine ⟨members, hmembers, (List.length_map _).symm, ?_⟩
  rw [hnames, flatTable, List.forall₂_map_right_iff, List.forall₂_same]
  intro name _
  constructor
  · rw [Table.fieldOf, htype, Shape.columnType_ofKind?]
  · rw [htype, valuesOf_rows, decodeColumn_plain huniform.kindOf?_eq,
      List.map_map]
    rfl

end Tables

end JsonIntake
