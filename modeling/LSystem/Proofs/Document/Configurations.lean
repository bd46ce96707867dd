import LSystem.Proofs.Document.RoundTrip

/-! Documents of configurations.

A configuration settles six fields, and a document of one need not have them all. Each field is read
on its own, from the member of its name or the item at its place, and has its default value if there
is none (`decode?_eq_some_iff`). Settings change a configuration field by field too, and the last one
of a field counts (`setting_ofSettings`). An object has no two values for a field, so it gives what its
members set, in whatever order they stand and are set, and a list gives what an object of as many
members gives (`decode_settings`). -/
namespace LSystem

/-! ### Members by place -/

namespace Document

/-- A list that is no longer than a record has the members at its places. -/
theorem partialRecord?_list {names : List String} {items : List Document}
    (h : items.length ≤ names.length) : partialRecord? names (.list items) =
      some ((List.range names.length).map fun place => items[place]?) := by
  rw [partialRecord?, if_pos h, Option.some.injEq]
  apply List.ext_getElem?
  intro place
  rw [List.getElem?_map, List.getElem?_append, List.length_map]
  by_cases hitem : place < items.length
  · rw [if_pos hitem, List.getElem?_map, List.getElem?_range (by omega), Option.map_some,
      List.getElem?_eq_getElem hitem]
    rfl
  · rw [if_neg hitem, List.getElem?_replicate]
    by_cases hplace : place < names.length
    · rw [if_pos (by omega), List.getElem?_range hplace, Option.map_some,
        List.getElem?_eq_none (Nat.le_of_not_lt hitem)]
    · rw [if_neg (by omega), List.getElem?_eq_none (by simpa using hplace)]
      rfl

/-! ### Numbers -/

/-- A number as documents hold it, whole or not. -/
inductive Number where
  | integer (value : Int)
  | real (value : Double)

namespace Number

/-- The document of a number. -/
def document : Number → Document
  | integer value => .integer value
  | real value => .real value

/-- The single-precision number closest to a number. -/
def single : Number → Single
  | integer value => .ofInt value
  | real value => value.convert _

theorem decode?_document (number : Number) : Codec.decode? number.document = some number.single := by
  cases number <;> rfl

theorem decode?_point (x y : Number) :
    Codec.decode? (.list [x.document, y.document]) = some (⟨x.single, y.single⟩ : Point) := by
  cases x <;> cases y <;> rfl

theorem decode?_color (hue saturation brightness alpha : Number) :
    Codec.decode?
        (.list [hue.document, saturation.document, brightness.document, alpha.document]) =
      some (⟨hue.single, saturation.single, brightness.single, alpha.single⟩ : Color) := by
  cases hue <;> cases saturation <;> cases brightness <;> cases alpha <;> rfl

end Number

end Document

end LSystem

namespace LSystem.Walk.Config

open Codec
open Document (Number)

/-! ### Fields and settings -/

/-- What a configuration settles. -/
inductive Field where
  | origin
  | heading
  | length
  | reduction
  | maxDepth
  | defaultColor
deriving DecidableEq

/-- The fields in the order in which a list stores them. -/
def Field.all : List Field := [.origin, .heading, .length, .reduction, .maxDepth, .defaultColor]

theorem Field.mem_all (field : Field) : field ∈ all := by cases field <;> decide

/-- The field that a setting is about. -/
def Setting.field : Setting → Field
  | .origin _ => .origin
  | .heading _ => .heading
  | .length _ => .length
  | .reduction _ => .reduction
  | .maxDepth _ => .maxDepth
  | .defaultColor _ => .defaultColor

/-- What a configuration has settled about a field. -/
def setting (config : Config) : Field → Setting
  | .origin => .origin config.origin
  | .heading => .heading config.heading
  | .length => .length config.length
  | .reduction => .reduction config.reduction
  | .maxDepth => .maxDepth config.maxDepth
  | .defaultColor => .defaultColor config.defaultColor

theorem field_setting (config : Config) (field : Field) : (config.setting field).field = field := by
  cases field <;> rfl

/-- A setting changes its own field and no other. -/
theorem setting_set (config : Config) (setting : Setting) (field : Field) :
    (config.set setting).setting field =
      if setting.field = field then setting else config.setting field := by
  cases setting <;> cases field <;> rfl

/-- **The last setting of a field counts**, and a field without one has its default. -/
theorem setting_ofSettings (settings : List Setting) (field : Field) :
    (ofSettings settings).setting field =
      (settings.reverse.find? fun setting => setting.field = field).getD
        (({} : Config).setting field) := by
  suffices ∀ config : Config, (settings.foldl set config).setting field =
      (settings.reverse.find? fun setting => setting.field = field).getD (config.setting field) from
    this {}
  induction settings with
  | nil => exact fun config => rfl
  | cons first rest ih =>
    intro config
    rw [List.foldl_cons, ih, setting_set, List.reverse_cons, List.find?_append]
    cases List.find? (fun setting => decide (setting.field = field)) rest.reverse with
    | some last => rfl
    | none => by_cases h : first.field = field <;> simp [h]

/-- A setting counts if there is no other of its field. -/
theorem setting_ofSettings_of_mem {settings : List Setting} {setting : Setting}
    (h : setting ∈ settings)
    (hunique : ∀ other ∈ settings, other.field = setting.field → other = setting) :
    (ofSettings settings).setting setting.field = setting := by
  rw [setting_ofSettings]
  cases hfound : settings.reverse.find? fun other => other.field = setting.field with
  | none => simpa using List.find?_eq_none.mp hfound setting (List.mem_reverse.mpr h)
  | some other =>
    have hmem := List.mem_reverse.mp (List.mem_of_find?_eq_some hfound)
    have hfield : other.field = setting.field := by simpa using List.find?_some hfound
    exact hunique other hmem hfield

theorem setting_ofSettings_of_not_mem {settings : List Setting} {field : Field}
    (h : ∀ setting ∈ settings, setting.field ≠ field) :
    (ofSettings settings).setting field = ({} : Config).setting field := by
  rw [setting_ofSettings, List.find?_eq_none.mpr]
  · rfl
  · intro setting hmem
    rw [decide_eq_true_eq]
    exact h setting (List.mem_reverse.mp hmem)

/-! ### Fields in documents -/

namespace Field

/-- The name of the member that stores a field. -/
def name : Field → String
  | origin => "origin"
  | heading => "initial_heading"
  | length => "base_length"
  | reduction => "reduction"
  | maxDepth => "max_stack_depth"
  | defaultColor => "default_color"

/-- The place of the item that stores a field. -/
def place : Field → Nat
  | origin => 0
  | heading => 1
  | length => 2
  | reduction => 3
  | maxDepth => 4
  | defaultColor => 5

/-- The setting that a value gives a field. -/
def decode? : Field → Document → Option Setting
  | origin, value => (Codec.decode? value).map .origin
  | heading, value => (Codec.decode? value).map .heading
  | length, value => (Codec.decode? value).map .length
  | reduction, value => (Codec.decode? value).map .reduction
  | maxDepth, value => (Codec.decode? value).map .maxDepth
  | defaultColor, value => (Codec.decode? value).map .defaultColor

/-- The value that a document has for a field. -/
def valueIn? (field : Field) : Document → Option Document
  | .object members => members.get? field.name
  | .list items => items[field.place]?
  | _ => none

/-- The setting of a field in a document, the default one if there is no value. -/
def read? (field : Field) (document : Document) : Option Setting :=
  match field.valueIn? document with
  | some value => field.decode? value
  | none => some (({} : Config).setting field)

theorem getElem?_place (field : Field) : configMembers[field.place]? = some field.name := by
  cases field <;> rfl

theorem name_mem (field : Field) : field.name ∈ configMembers :=
  List.mem_of_getElem? field.getElem?_place

theorem name_inj {field other : Field} (h : field.name = other.name) : field = other := by
  revert h
  cases field <;> cases other <;> decide

theorem field_of_decode? {field : Field} {value : Document} {setting : Setting}
    (h : field.decode? value = some setting) : setting.field = field := by
  cases field <;> obtain ⟨_, -, rfl⟩ := Option.map_eq_some_iff.mp h <;> rfl

theorem read?_eq_none_iff {field : Field} {document : Document} : field.read? document = none ↔
    ∃ value, field.valueIn? document = some value ∧ field.decode? value = none := by
  unfold read?
  cases field.valueIn? document with
  | none => simp
  | some value => simp

theorem field_of_read? {field : Field} {document : Document} {setting : Setting}
    (h : field.read? document = some setting) : setting.field = field := by
  unfold read? at h
  split at h
  · exact field_of_decode? h
  · cases h
    exact field_setting _ field

end Field

/-- The documents that can store a configuration: objects, and lists of no more items than fields. -/
def Shaped : Document → Prop
  | .object _ => True
  | .list items => items.length ≤ configMembers.length
  | _ => False

theorem shaped_object {names : List String} (members : Members Document names) :
    Shaped (.object members) := trivial

theorem shaped_list {items : List Document} :
    Shaped (.list items) ↔ items.length ≤ configMembers.length := Iff.rfl

theorem partialRecord?_of_shaped {document : Document} (h : Shaped document) :
    document.partialRecord? configMembers =
      some [Field.origin.valueIn? document, Field.heading.valueIn? document,
        Field.length.valueIn? document, Field.reduction.valueIn? document,
        Field.maxDepth.valueIn? document, Field.defaultColor.valueIn? document] := by
  cases document with
  | object members => rfl
  | list items => exact Document.partialRecord?_list h
  | _ => exact h.elim

theorem partialRecord?_of_not_shaped {document : Document} (h : ¬Shaped document) :
    document.partialRecord? configMembers = none := by
  cases document with
  | object members => exact absurd (shaped_object members) h
  | list items => exact if_neg h
  | _ => rfl

theorem decode?_of_not_shaped {document : Document} (h : ¬Shaped document) :
    decode? document = (none : Option Config) := by
  simp only [decode?, partialRecord?_of_not_shaped h]

/-- A field is read as what it holds, and as its default if there is no value. -/
theorem read_iff {α : Type} [Codec α] {state : α → Setting} (hstate : Function.Injective state)
    {default held : α} {value? : Option Document} :
    (match value? with
      | some value => (decode? value).map state
      | none => some (state default)) = some (state held) ↔ decodeOr? default value? = some held := by
  cases value? with
  | none => exact ⟨fun h => congrArg some (hstate (Option.some.inj h)), congrArg (Option.map state)⟩
  | some value => exact ⟨fun h => Option.map_injective hstate h, congrArg (Option.map state)⟩

/-- **A configuration is decoded field by field.** -/
theorem decode?_eq_some_iff {document : Document} (h : Shaped document) {config : Config} :
    decode? document = some config ↔
      ∀ field : Field, field.read? document = some (config.setting field) := by
  simp only [decode?, partialRecord?_of_shaped h]
  constructor
  · intro hread
    obtain ⟨origin, horigin, hread⟩ := Option.bind_eq_some_iff.mp hread
    obtain ⟨heading, hheading, hread⟩ := Option.bind_eq_some_iff.mp hread
    obtain ⟨length, hlength, hread⟩ := Option.bind_eq_some_iff.mp hread
    obtain ⟨reduction, hreduction, hread⟩ := Option.bind_eq_some_iff.mp hread
    obtain ⟨depth, hdepth, hread⟩ := Option.bind_eq_some_iff.mp hread
    obtain ⟨color, hcolor, hread⟩ := Option.bind_eq_some_iff.mp hread
    cases hread
    intro field
    cases field with
    | origin => exact (read_iff fun _ _ => Setting.origin.inj).mpr horigin
    | heading => exact (read_iff fun _ _ => Setting.heading.inj).mpr hheading
    | length => exact (read_iff fun _ _ => Setting.length.inj).mpr hlength
    | reduction => exact (read_iff fun _ _ => Setting.reduction.inj).mpr hreduction
    | maxDepth => exact (read_iff fun _ _ => Setting.maxDepth.inj).mpr hdepth
    | defaultColor => exact (read_iff fun _ _ => Setting.defaultColor.inj).mpr hcolor
  · intro hread
    have horigin := (read_iff fun _ _ => Setting.origin.inj).mp (hread .origin)
    have hheading := (read_iff fun _ _ => Setting.heading.inj).mp (hread .heading)
    have hlength := (read_iff fun _ _ => Setting.length.inj).mp (hread .length)
    have hreduction := (read_iff fun _ _ => Setting.reduction.inj).mp (hread .reduction)
    have hdepth := (read_iff fun _ _ => Setting.maxDepth.inj).mp (hread .maxDepth)
    have hcolor := (read_iff fun _ _ => Setting.defaultColor.inj).mp (hread .defaultColor)
    rw [horigin, hheading, hlength, hreduction, hdepth, hcolor]
    rfl

/-- Nothing is decoded exactly if some field is not read. -/
theorem decode?_eq_none_iff {document : Document} (h : Shaped document) :
    decode? document = (none : Option Config) ↔ ∃ field : Field, field.read? document = none := by
  constructor
  · intro hdecode
    by_contra hread
    simp only [not_exists, ← ne_eq, Option.ne_none_iff_exists'] at hread
    choose state hstate using hread
    have hfield (field : Field) : (state field).field = field := Field.field_of_read? (hstate field)
    have hsome : decode? document = some (ofSettings (Field.all.map state)) := by
      refine (decode?_eq_some_iff h).mpr fun field => ?_
      have hmem : state field ∈ Field.all.map state := List.mem_map_of_mem field.mem_all
      have hlast := setting_ofSettings_of_mem hmem fun other hother hsame => by
        obtain ⟨found, -, rfl⟩ := List.mem_map.mp hother
        rw [hfield, hfield] at hsame
        rw [hsame]
      rw [hfield] at hlast
      rw [hlast, hstate]
    rw [hdecode] at hsome
    cases hsome
  · rintro ⟨field, hread⟩
    cases hdecode : (decode? document : Option Config) with
    | none => rfl
    | some config =>
      rw [(decode?_eq_some_iff h).mp hdecode field] at hread
      cases hread

section Stored
variable {settings calls : List Setting} {value : Setting → Document}
  {unknown : List (String × Document)} {names : List String} {members : Members Document names}
  (hunknown : ∀ member ∈ unknown, member.1 ∉ configMembers)
  (hmembers : members.toList.Perm
    (settings.map (fun setting => (setting.field.name, value setting)) ++ unknown))
include hunknown hmembers

/-- Under the name of a field stands the value of a setting of that field and nothing else. -/
theorem get?_name_eq_some_iff {field : Field} {held : Document} :
    members.get? field.name = some held ↔
      ∃ setting ∈ settings, setting.field = field ∧ value setting = held := by
  rw [Members.get?_eq_some_iff, hmembers.mem_iff, List.mem_append, List.mem_map]
  constructor
  · rintro (⟨setting, hsetting, heq⟩ | hother)
    · obtain ⟨hname, hheld⟩ := Prod.mk.inj heq
      exact ⟨setting, hsetting, Field.name_inj hname, hheld⟩
    · exact absurd field.name_mem (hunknown _ hother)
  · rintro ⟨setting, hsetting, rfl, rfl⟩
    exact .inl ⟨setting, hsetting, rfl⟩

variable (hvalue : ∀ setting ∈ settings, setting.field.decode? (value setting) = some setting)
include hvalue

/-- No two settings of a field are stored, since names are different. -/
theorem eq_of_field_eq {first second : Setting} (hfirst : first ∈ settings)
    (hsecond : second ∈ settings) (hfield : first.field = second.field) : first = second := by
  have hget : members.get? second.field.name = some (value first) :=
    (get?_name_eq_some_iff hunknown hmembers).mpr ⟨first, hfirst, hfield, rfl⟩
  have hget' : members.get? second.field.name = some (value second) :=
    (get?_name_eq_some_iff hunknown hmembers).mpr ⟨second, hsecond, rfl, rfl⟩
  have hheld : value first = value second := Option.some.inj (hget.symm.trans hget')
  have hread := hvalue first hfirst
  rw [hfield, hheld, hvalue second hsecond] at hread
  exact (Option.some.inj hread).symm

/-- An object gives what its members set, whatever other members it has. -/
theorem decode?_object (hcalls : calls.Perm settings) :
    decode? (.object members) = some (ofSettings calls) := by
  refine (decode?_eq_some_iff (shaped_object members)).mpr fun field => ?_
  by_cases hset : ∃ setting ∈ settings, setting.field = field
  · obtain ⟨setting, hsetting, rfl⟩ := hset
    have hheld : setting.field.valueIn? (.object members) = some (value setting) :=
      (get?_name_eq_some_iff hunknown hmembers).mpr ⟨setting, hsetting, rfl, rfl⟩
    rw [Field.read?, hheld, setting_ofSettings_of_mem (hcalls.mem_iff.mpr hsetting)]
    · exact hvalue setting hsetting
    · intro other hother
      exact eq_of_field_eq hunknown hmembers hvalue (hcalls.mem_iff.mp hother) hsetting
  · have hheld : field.valueIn? (.object members) = none := by
      refine Option.eq_none_iff_forall_ne_some.mpr fun held hheld => ?_
      obtain ⟨setting, hsetting, hfield, -⟩ := (get?_name_eq_some_iff hunknown hmembers).mp hheld
      exact hset ⟨setting, hsetting, hfield⟩
    rw [Field.read?, hheld, setting_ofSettings_of_not_mem]
    exact fun setting hsetting hfield => hset ⟨setting, hcalls.mem_iff.mp hsetting, hfield⟩

end Stored

/-- A list gives what an object gives that has its items under the names of the fields. -/
theorem decode?_list {items : List Document} (h : items.length ≤ configMembers.length) :
    (decode? (.list items) : Option Config) = decode? (.ofMembers (configMembers.zip items)) := by
  have hvalue (field : Field) : field.valueIn? (.list items) =
      field.valueIn? (.ofMembers (configMembers.zip items)) :=
    (Members.get?_ofList_zip (by decide) items field.getElem?_place).symm
  have hlist := partialRecord?_of_shaped (shaped_list.mpr h)
  have hobject := partialRecord?_of_shaped
    (shaped_object (Members.ofList (configMembers.zip items)).2)
  simp only [decode?, Document.ofMembers, hlist, hobject, hvalue]

/-- Numbers are taken as they are. -/
theorem decode?_numbers {depth : Nat} (hdepth : depth < wordLimit)
    (x y heading length reduction hue saturation brightness alpha : Number) :
    decode? (.list [.list [x.document, y.document], heading.document, length.document,
        reduction.document, .integer depth,
        .list [hue.document, saturation.document, brightness.document, alpha.document]]) =
      some ({
        origin := ⟨x.single, y.single⟩
        heading := heading.single
        length := length.single
        reduction := reduction.single
        maxDepth := depth
        defaultColor := ⟨hue.single, saturation.single, brightness.single, alpha.single⟩
        } : Config) := by
  have hcount : decode? (.integer depth) = some depth := yields_count hdepth
  refine (decode?_eq_some_iff ?_).mpr fun field => ?_
  · exact shaped_list.mpr (Nat.le_refl 6)
  · cases field with
    | origin => exact congrArg (Option.map Setting.origin) (Number.decode?_point x y)
    | heading => exact congrArg (Option.map Setting.heading) heading.decode?_document
    | length => exact congrArg (Option.map Setting.length) length.decode?_document
    | reduction => exact congrArg (Option.map Setting.reduction) reduction.decode?_document
    | maxDepth =>
      show (decode? (.integer depth)).map Setting.maxDepth = some (.maxDepth depth)
      rw [hcount]
      rfl
    | defaultColor =>
      exact congrArg (Option.map Setting.defaultColor)
        (Number.decode?_color hue saturation brightness alpha)

/-- **Decoding sets what is there.** An object whose members store some settings, in any order and
among any members of other names, decodes to the default configuration with these settings made, in
any order. A list decodes like the object that has its items under the names of the first fields, and
not at all if there are more items than fields. A document does not decode exactly if it is neither an
object nor such a list or has a value for a field that does not decode. And numbers are only rounded
to single precision: none is brought onto a scale, and none is refused. -/
theorem decode_settings :
    (∀ (settings calls : List Setting) (value : Setting → Document)
      (unknown : List (String × Document)) (names : List String) (members : Members Document names),
      (∀ setting ∈ settings, setting.field.decode? (value setting) = some setting) →
      (∀ member ∈ unknown, member.1 ∉ configMembers) →
      members.toList.Perm
        (settings.map (fun setting => (setting.field.name, value setting)) ++ unknown) →
      calls.Perm settings → decode? (.object members) = some (ofSettings calls)) ∧
    (∀ items : List Document,
      (items.length ≤ configMembers.length →
        (decode? (.list items) : Option Config) = decode? (.ofMembers (configMembers.zip items))) ∧
      (configMembers.length < items.length → decode? (.list items) = (none : Option Config))) ∧
    (∀ document, decode? document = (none : Option Config) ↔ ¬Shaped document ∨
      ∃ field : Field, ∃ value, field.valueIn? document = some value ∧ field.decode? value = none) ∧
    ∀ depth < wordLimit, ∀ x y heading length reduction hue saturation brightness alpha : Number,
      decode? (.list [.list [x.document, y.document], heading.document, length.document,
          reduction.document, .integer depth,
          .list [hue.document, saturation.document, brightness.document, alpha.document]]) =
        some ({
          origin := ⟨x.single, y.single⟩
          heading := heading.single
          length := length.single
          reduction := reduction.single
          maxDepth := depth
          defaultColor := ⟨hue.single, saturation.single, brightness.single, alpha.single⟩
          } : Config) := by
  refine ⟨fun _ _ _ _ _ _ hvalue hunknown hmembers => decode?_object hunknown hmembers hvalue,
    fun items => ⟨decode?_list, fun hlong => ?_⟩, fun document => ?_, fun _ => decode?_numbers⟩
  · exact decode?_of_not_shaped fun hshaped => Nat.not_le_of_lt hlong (shaped_list.mp hshaped)
  · by_cases hshaped : Shaped document
    · rw [decode?_eq_none_iff hshaped, or_iff_right (not_not_intro hshaped)]
      exact exists_congr fun field => Field.read?_eq_none_iff
    · exact iff_of_true (decode?_of_not_shaped hshaped) (.inl hshaped)

/-- A length below zero and a color off its scales are decoded from members in disorder. -/
theorem decode_settings_unchecked :
    let color : Color := ⟨400, 100, 151, 50⟩
    let shades : Document := .list [.integer 400, .integer 100, .integer 151, .integer 50]
    let members : Members Document ["note", "default_color", "max_stack_depth", "base_length"] :=
      .cons "note" .null <|
      .cons "default_color" shades <|
      .cons "max_stack_depth" (.integer 3) <|
      .cons "base_length" (.integer (-5)) .nil
    let config : Config := { length := -5, maxDepth := 3, defaultColor := color }
    decode? (.object members) = some config ∧ config.validate = .error (.length (-5)) := by
  intro color shades members config
  let settings : List Setting := [.length (-5), .maxDepth 3, .defaultColor color]
  let value : Setting → Document
    | .length _ => .integer (-5)
    | .maxDepth _ => .integer 3
    | _ => shades
  have hlength : decode? (.integer (-5)) = some (-5 : Single) := by decide +kernel
  have hcolor : decode? shades = some color := by decide +kernel
  have hvalue : ∀ setting ∈ settings, setting.field.decode? (value setting) = some setting :=
    List.forall_mem_cons.mpr ⟨congrArg (Option.map Setting.length) hlength,
      List.forall_mem_cons.mpr ⟨rfl,
        List.forall_mem_singleton.mpr (congrArg (Option.map Setting.defaultColor) hcolor)⟩⟩
  let unknown : List (String × Document) := [("note", .null)]
  have hunknown : ∀ member ∈ unknown, member.1 ∉ configMembers :=
    List.forall_mem_singleton.mpr (by decide)
  have hreverse : members.toList =
      (settings.map (fun setting => (setting.field.name, value setting)) ++ unknown).reverse := rfl
  refine ⟨decode_settings.1 settings settings.reverse value unknown _ members hvalue hunknown ?_
    (List.reverse_perm settings), by decide +kernel⟩
  rw [hreverse]
  exact List.reverse_perm _

end LSystem.Walk.Config
