import LSystem.Binary.Decimal
import LSystem.Document.Members

/-! Documents.

A document is plain data for storing values: texts, numbers, lists and objects with members under
different names. Numbers are whole numbers of at most 64 bits or double-precision numbers; which of
the two a numeral gives is a matter of how it is written. A record of known members is stored as an
object, whose other members and whose order do not matter, or as the list of its members in order. -/
namespace LSystem

/-- Plain data. -/
inductive Document where
  | null
  | bool (value : Bool)
  | integer (value : Int)
  | real (value : Double)
  | text (value : String)
  | list (items : List Document)
  | object {names : List String} (members : Members Document names)

/-- A numeral: its sign, its digits read as one number, and the place of the last digit if it is
written with a point or an exponent. -/
structure Numeral where
  negative : Bool
  digits : Nat
  exponent : Option Int
deriving DecidableEq

/-- Unsigned words of 64 bits are below this. -/
def wordLimit : Nat := 0x10000000000000000

namespace Numeral

/-- The double-precision number closest to the numeral. -/
def toDouble (numeral : Numeral) : Double :=
  .ofDecimal numeral.negative ⟨numeral.digits, numeral.exponent.getD 0⟩

/-- The single-precision number closest to that. -/
def toSingle (numeral : Numeral) : Single := numeral.toDouble.convert _

/-- Digits alone are a whole number if 64 bits hold it, with a sign bit when there is a sign; zero
with a sign is not whole. -/
def toDocument (numeral : Numeral) : Document :=
  match numeral.exponent, numeral.negative with
  | none, false =>
    if numeral.digits < wordLimit then .integer numeral.digits else .real numeral.toDouble
  | none, true =>
    if 0 < numeral.digits ∧ numeral.digits ≤ wordLimit / 2 then .integer (-numeral.digits)
    else .real numeral.toDouble
  | some _, _ => .real numeral.toDouble

end Numeral

namespace Document

instance : Inhabited Document := ⟨null⟩

/-- The object of some members, of which the last of a name counts. -/
def ofMembers (members : List (String × Document)) : Document := .object (Members.ofList members).2

/-- The members of a record, by name from an object and by place from a list that has them all. -/
def record? (names : List String) : Document → Option (List (Option Document))
  | object members => some (names.map members.get?)
  | list items => if items.length = names.length then some (items.map some) else none
  | _ => none

/-- The members of a record, of which a list need only have the first. -/
def partialRecord? (names : List String) : Document → Option (List (Option Document))
  | object members => some (names.map members.get?)
  | list items =>
    if items.length ≤ names.length then
      some (items.map some ++ List.replicate (names.length - items.length) none)
    else none
  | _ => none

/-- A case of a choice: its name, and its data if it has any. -/
def case? : Document → Option (String × Option Document)
  | text name => some (name, none)
  | object (.cons name data .nil _) => some (name, some data)
  | _ => none

end Document

end LSystem
