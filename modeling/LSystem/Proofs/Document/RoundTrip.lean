import LSystem.Document.Codec
import LSystem.Proofs.Binary.Range

/-! Round trips through documents.

A number that is not finite is stored as `null`, and `null` also stands for a color that is missing.
These two are never taken for one another: the document of a color is an object whatever its numbers
are, and a member that is there is read even if it has a default. So a document gives back its value
if all numbers in the value are finite, and nothing if one of them is not. Every reader keeps this
shape (`Yields`), readers in sequence add up their numbers, and `documents_roundTrip` states it for
the values that are stored. -/
namespace LSystem

/-- Values made of numbers of single precision. -/
class Numbered (α : Type) where
  singles : α → List Single

namespace Codec

open Numbered (singles)

instance : Numbered Single := ⟨fun x => [x]⟩

instance : Numbered Point := ⟨fun point => [point.x, point.y]⟩

instance : Numbered Color :=
  ⟨fun color => [color.hue, color.saturation, color.brightness, color.alpha]⟩

instance {α : Type} [Numbered α] : Numbered (Option α) := ⟨fun value => value.elim [] singles⟩

instance {α : Type} [Numbered α] : Numbered (Array α) := ⟨fun items => items.toList.flatMap singles⟩

instance : Numbered Command where
  singles
    | .setColor color => singles color
    | .line start stop => singles start ++ singles stop

instance : Numbered Canvas :=
  ⟨fun canvas => canvas.width :: canvas.height :: singles canvas.commands⟩

instance : Numbered Turtle :=
  ⟨fun turtle => singles turtle.position ++ turtle.heading :: turtle.length :: singles turtle.color⟩

instance : Numbered Turtle.Op where
  singles
    | .turn factor => [factor]
    | _ => []

instance : Numbered Walk.Config :=
  ⟨fun config => singles config.origin ++ config.heading :: config.length :: config.reduction ::
    singles config.defaultColor⟩

instance : Numbered Walk.Summary := ⟨fun summary => singles summary.finalState⟩

/-- A reading gives a value if some numbers are finite, and nothing otherwise. -/
def Yields {α : Type} (reading : Option α) (value : α) (numbers : List Single) : Prop :=
  reading = if numbers.all Binary.isFinite then some value else none

namespace Yields
variable {α β : Type} {reading : Option α} {value : α} {numbers more : List Single}

/-- Readings in sequence need the numbers of both to be finite. -/
theorem bind (h : Yields reading value numbers) {next : α → Option β} {result : β}
    (hnext : Yields (next value) result more) :
    Yields (reading >>= next) result (numbers ++ more) := by
  unfold Yields at h hnext ⊢
  rw [h, List.all_append]
  cases numbers.all Binary.isFinite with
  | false => rfl
  | true => exact hnext

theorem map (h : Yields reading value numbers) (f : α → β) :
    Yields (reading.map f) (f value) numbers := by
  unfold Yields at h ⊢
  rw [h]
  split <;> rfl

/-- The last of some readings needs no numbers after its own. -/
theorem last (h : Yields reading value numbers) (f : α → β) :
    Yields (reading >>= fun value => Pure.pure (f value)) (f value) numbers := by
  rw [bind_pure_comp]
  exact h.map f

end Yields

/-! ### Numbers -/

theorem yields_single (x : Single) : Yields (decode? (encode x)) x (singles x) := by
  show decode? (if x.isFinite then Document.real (x.convert _) else .null) =
    if [x].all Binary.isFinite then some x else none
  rw [List.all_cons, List.all_nil, Bool.and_true]
  cases x.isFinite with
  | false => rfl
  | true => exact congrArg some (Binary.convert_convert Binary.Format.single_wider x)

/-- Counts of 64 bits are always read back. -/
theorem yields_count {n : Nat} (h : n < wordLimit) : Yields (decode? (encode n)) n [] := by
  show (if 0 ≤ (n : Int) ∧ (n : Int) < wordLimit then some (n : Int).toNat else none) = some n
  rw [if_pos ⟨Int.natCast_nonneg n, Int.ofNat_lt.mpr h⟩, Int.toNat_natCast]

/-! ### Containers -/

/-- What is not `null` is read as a value. -/
theorem decode?_option {α : Type} [Codec α] {document : Document} (h : document ≠ .null) :
    (decode? document : Option (Option α)) = (decode? document).map some := by
  cases document with
  | null => exact absurd rfl h
  | _ => rfl

section Containers
variable {α : Type} [Codec α] [Numbered α]

/-- What is missing is stored as `null`, which is what no value may be stored as. -/
theorem yields_option (h : ∀ value : α, Yields (decode? (encode value)) value (singles value))
    (hnull : ∀ value : α, encode value ≠ .null) (value? : Option α) :
    Yields (decode? (encode value?)) value? (singles value?) := by
  cases value? with
  | none => rfl
  | some value =>
    show Yields (decode? (encode value)) (some value) (singles value)
    rw [decode?_option (hnull value)]
    exact (h value).map some

theorem yields_list (h : ∀ value : α, Yields (decode? (encode value)) value (singles value))
    (items : List α) : Yields ((items.map encode).mapM decode?) items (items.flatMap singles) := by
  induction items with
  | nil => rfl
  | cons item rest ih =>
    rw [List.map_cons, List.mapM_cons, List.flatMap_cons]
    exact (h item).bind (ih.last (item :: ·))

theorem yields_array (h : ∀ value : α, Yields (decode? (encode value)) value (singles value))
    (items : Array α) : Yields (decode? (encode items)) items (singles items) :=
  (yields_list h items.toList).map List.toArray

end Containers

/-! ### Records and choices

Looking up the members of a record by name is a computation that no number takes part in, so reading
the document of a record is reading the documents of its members in sequence. -/

theorem yields_point (point : Point) : Yields (decode? (encode point)) point (singles point) :=
  (yields_single point.x).bind ((yields_single point.y).last _)

theorem yields_color (color : Color) : Yields (decode? (encode color)) color (singles color) :=
  (yields_single color.hue).bind ((yields_single color.saturation).bind
    ((yields_single color.brightness).bind ((yields_single color.alpha).last _)))

/-- No color is stored as a color that is missing. -/
theorem encode_color_ne_null (color : Color) : encode color ≠ .null := fun h => nomatch h

theorem yields_command (command : Command) :
    Yields (decode? (encode command)) command (singles command) := by
  cases command with
  | setColor color => exact (yields_color color).last Command.setColor
  | line start stop => exact (yields_point start).bind ((yields_point stop).last (Command.line start))

theorem yields_canvas (canvas : Canvas) : Yields (decode? (encode canvas)) canvas (singles canvas) :=
  (yields_single canvas.width).bind ((yields_single canvas.height).bind
    ((yields_array yields_command canvas.commands).last _))

theorem yields_turtle (turtle : Turtle) : Yields (decode? (encode turtle)) turtle (singles turtle) :=
  (yields_point turtle.position).bind ((yields_single turtle.heading).bind
    ((yields_single turtle.length).bind
      ((yields_option yields_color encode_color_ne_null turtle.color).last _)))

theorem yields_op (op : Turtle.Op) : Yields (decode? (encode op)) op (singles op) := by
  cases op with
  | turn factor => exact (yields_single factor).map Turtle.Op.turn
  | _ => rfl

/-- A member that is there is read, whatever it is by default. -/
theorem yields_decodeOr {α : Type} [Codec α] {value : α} {numbers : List Single}
    (h : Yields (decode? (encode value)) value numbers) (default : α) :
    Yields (decodeOr? default (some (encode value))) value numbers := h

theorem yields_config {config : Walk.Config} (hdepth : config.maxDepth < wordLimit) :
    Yields (decode? (encode config)) config (singles config) :=
  (yields_decodeOr (yields_point config.origin) _).bind
    ((yields_decodeOr (yields_single config.heading) _).bind
      ((yields_decodeOr (yields_single config.length) _).bind
        ((yields_decodeOr (yields_single config.reduction) _).bind
          ((yields_decodeOr (yields_count hdepth) _).bind
            ((yields_decodeOr (yields_color config.defaultColor) _).last _)))))

theorem yields_summary {summary : Walk.Summary} (hsegments : summary.segments < wordLimit)
    (hdepth : summary.maxDepth < wordLimit) :
    Yields (decode? (encode summary)) summary (singles summary) :=
  (yields_count hsegments).bind ((yields_count hdepth).bind ((yields_turtle summary.finalState).last _))

/-! ### Stored values -/

/-- The document of a value decodes to the value if all its numbers are finite, and does not decode
if one of them is not. -/
def RoundTrips {α : Type} [Codec α] [Numbered α] (value : α) : Prop :=
  ((∀ x ∈ singles value, x.isFinite = true) → decode? (encode value) = some value) ∧
  ((∃ x ∈ singles value, x.isFinite = false) → decode? (encode value) = (none : Option α))

theorem Yields.roundTrips {α : Type} [Codec α] [Numbered α] {value : α}
    (h : Yields (decode? (encode value)) value (singles value)) : RoundTrips value := by
  constructor
  · intro hfinite
    rw [h, if_pos (List.all_eq_true.mpr hfinite)]
  · rintro ⟨x, hmem, hx⟩
    rw [h, if_neg]
    intro hall
    have := List.all_eq_true.mp hall x hmem
    rw [hx] at this
    cases this

/-- **Documents give back exactly the values whose numbers are finite**, for counts of 64 bits. -/
theorem documents_roundTrip :
    (∀ color : Color, RoundTrips color) ∧
    (∀ turtle : Turtle, RoundTrips turtle) ∧
    (∀ op : Turtle.Op, RoundTrips op) ∧
    (∀ config : Walk.Config, config.maxDepth < wordLimit → RoundTrips config) ∧
    (∀ summary : Walk.Summary, summary.segments < wordLimit → summary.maxDepth < wordLimit →
      RoundTrips summary) ∧
    (∀ command : Command, RoundTrips command) ∧
    (∀ canvas : Canvas, RoundTrips canvas) :=
  ⟨fun color => (yields_color color).roundTrips, fun turtle => (yields_turtle turtle).roundTrips,
    fun op => (yields_op op).roundTrips, fun _ hdepth => (yields_config hdepth).roundTrips,
    fun _ hsegments hdepth => (yields_summary hsegments hdepth).roundTrips,
    fun command => (yields_command command).roundTrips,
    fun canvas => (yields_canvas canvas).roundTrips⟩

theorem documents_roundTrip_deepest :
    let config : Walk.Config := { heading := .zero true, maxDepth := wordLimit - 1 }
    let turtle : Turtle := { color := some ⟨.nan, 100, 100, 100⟩ }
    let summary : Walk.Summary := ⟨3, wordLimit - 1, turtle⟩
    decode? (encode config) = some config ∧
      decode? (encode summary) = (none : Option Walk.Summary) := by
  intro config turtle summary
  obtain ⟨-, -, -, hconfig, hsummary, -⟩ := documents_roundTrip
  exact ⟨(hconfig config (by decide)).1 (by decide +kernel),
    (hsummary summary (by decide) (by decide)).2 (by decide +kernel)⟩

end Codec

end LSystem
