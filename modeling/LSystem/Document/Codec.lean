import LSystem.Document.Basic
import LSystem.Walk.Run

/-! The documents of values.

Every value has one document, and decoding reads it back; decoding is wider than encoding in what it
takes for records, since it looks members up by name and also takes the list of them. A number that
is not finite has no numeral and is stored as `null`, which does not decode as a number. Decoding
neither brings colors onto their scales nor checks configurations. -/
namespace LSystem

/-- Values that are stored as documents. -/
class Codec (α : Type) where
  encode : α → Document
  decode? : Document → Option α

namespace Codec

/-! ### Numbers -/

instance : Codec Single where
  encode x := if x.isFinite then .real (x.convert _) else .null
  decode?
    | .integer value => some (.ofInt value)
    | .real value => some (value.convert _)
    | _ => none

instance : Codec Nat where
  encode n := .integer n
  decode?
    | .integer value => if 0 ≤ value ∧ value < wordLimit then some value.toNat else none
    | _ => none

/-! ### Containers -/

instance {α : Type} [Codec α] : Codec (Option α) where
  encode
    | some value => encode value
    | none => .null
  decode?
    | .null => some none
    | document => (decode? document).map some

instance {α : Type} [Codec α] : Codec (Array α) where
  encode items := .list (items.toList.map encode)
  decode?
    | .list items => (items.mapM decode?).map List.toArray
    | _ => none

/-- The value of a member that may be missing. -/
def decodeOr? {α : Type} [Codec α] (default : α) : Option Document → Option α
  | some document => decode? document
  | none => some default

/-! ### Drawing -/

instance : Codec Point where
  encode point := .list [encode point.x, encode point.y]
  decode?
    | .list [x, y] => do return { x := ← decode? x, y := ← decode? y }
    | _ => none

instance : Codec Color where
  encode color := .object <|
    .cons "hue" (encode color.hue) <|
    .cons "saturation" (encode color.saturation) <|
    .cons "brightness" (encode color.brightness) <|
    .cons "alpha" (encode color.alpha) .nil
  decode? document :=
    match document.record? ["hue", "saturation", "brightness", "alpha"] with
    | some [some hue, some saturation, some brightness, some alpha] => do
      return {
        hue := ← decode? hue
        saturation := ← decode? saturation
        brightness := ← decode? brightness
        alpha := ← decode? alpha }
    | _ => none

instance : Codec Command where
  encode
    | .setColor color => .object <| .cons "SetColor" (encode color) .nil
    | .line start stop => .object <| .cons "Line"
      (.object <| .cons "from" (encode start) <| .cons "to" (encode stop) .nil) .nil
  decode? document :=
    match document.case? with
    | some ("SetColor", some color) => do return .setColor (← decode? color)
    | some ("Line", some (.object members)) =>
      match members.get? "from", members.get? "to" with
      | some start, some stop => do return .line (← decode? start) (← decode? stop)
      | _, _ => none
    | _ => none

instance : Codec Canvas where
  encode canvas := .object <|
    .cons "width" (encode canvas.width) <|
    .cons "height" (encode canvas.height) <|
    .cons "commands" (encode canvas.commands) .nil
  decode? document :=
    match document.record? ["width", "height", "commands"] with
    | some [some width, some height, some commands] => do
      return {
        width := ← decode? width
        height := ← decode? height
        commands := ← decode? commands }
    | _ => none

/-! ### Walks -/

instance : Codec Turtle where
  encode turtle := .object <|
    .cons "position" (encode turtle.position) <|
    .cons "heading" (encode turtle.heading) <|
    .cons "length" (encode turtle.length) <|
    .cons "color" (encode turtle.color) .nil
  decode? document :=
    match document.record? ["position", "heading", "length", "color"] with
    | some [some position, some heading, some length, color] => do
      return {
        position := ← decode? position
        heading := ← decode? heading
        length := ← decode? length
        color := ← decodeOr? none color }
    | _ => none

/-- The operation without data of a name. -/
def plainOp? : String → Option Turtle.Op
  | "Draw" => some .draw
  | "Move" => some .move
  | "Push" => some .push
  | "Pop" => some .pop
  | "SetColor" => some .setColor
  | "Ignore" => some .ignore
  | _ => none

instance : Codec Turtle.Op where
  encode
    | .draw => .text "Draw"
    | .move => .text "Move"
    | .turn factor => .object <| .cons "Turn" (encode factor) .nil
    | .push => .text "Push"
    | .pop => .text "Pop"
    | .setColor => .text "SetColor"
    | .ignore => .text "Ignore"
  decode? document :=
    match document.case? with
    | some ("Turn", some factor) => (decode? factor).map .turn
    | some (name, none) => plainOp? name
    | some (name, some .null) => plainOp? name
    | _ => none

/-- The names of a configuration's members, in order. -/
def configMembers : List String :=
  ["origin", "initial_heading", "base_length", "reduction", "max_stack_depth", "default_color"]

instance : Codec Walk.Config where
  encode config := .object <|
    .cons "origin" (encode config.origin) <|
    .cons "initial_heading" (encode config.heading) <|
    .cons "base_length" (encode config.length) <|
    .cons "reduction" (encode config.reduction) <|
    .cons "max_stack_depth" (encode config.maxDepth) <|
    .cons "default_color" (encode config.defaultColor) .nil
  decode? document :=
    let default : Walk.Config := {}
    match document.partialRecord? configMembers with
    | some [origin, heading, length, reduction, maxDepth, defaultColor] => do
      return {
        origin := ← decodeOr? default.origin origin
        heading := ← decodeOr? default.heading heading
        length := ← decodeOr? default.length length
        reduction := ← decodeOr? default.reduction reduction
        maxDepth := ← decodeOr? default.maxDepth maxDepth
        defaultColor := ← decodeOr? default.defaultColor defaultColor }
    | _ => none

instance : Codec Walk.Summary where
  encode summary := .object <|
    .cons "segments" (encode summary.segments) <|
    .cons "max_depth" (encode summary.maxDepth) <|
    .cons "final_state" (encode summary.finalState) .nil
  decode? document :=
    match document.record? ["segments", "max_depth", "final_state"] with
    | some [some segments, some maxDepth, some finalState] => do
      return {
        segments := ← decode? segments
        maxDepth := ← decode? maxDepth
        finalState := ← decode? finalState }
    | _ => none

end Codec

end LSystem
