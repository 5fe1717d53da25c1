import Mathlib.Order.Defs.LinearOrder
import Mathlib.Algebra.Notation.Defs

/-!
# JSON values as Python handles them

The values of a decoded request body.  The numbers are a type parameter `ν`: the handlers add them and compare
them, and read `True` and `False` as `1` and `0` wherever a number is expected, also as a dictionary key.
-/

namespace DistributedSync

/-- The operations on numbers that the handlers use.  No law is asked of them, so floats with their infinities and
`NaN` are meant too. -/
class Number (ν : Type) extends Zero ν, One ν, Add ν, LT ν where
  decEq : DecidableEq ν
  decLT : DecidableLT ν

attribute [reducible, instance] Number.decEq Number.decLT

instance Number.ofLinearOrder {ν : Type} [hzero : Zero ν] [hone : One ν] [hadd : Add ν] [hlin : LinearOrder ν] :
    Number ν where
  toZero := hzero
  toOne := hone
  toAdd := hadd
  toLT := hlin.toPartialOrder.toPreorder.toLT
  decEq := hlin.toDecidableEq
  decLT := hlin.toDecidableLT

/-- `max(a, b)`. -/
def pyMax {ν : Type} [Number ν] (a b : ν) : ν := if a < b then b else a

inductive Json (ν : Type) where
  | null
  | bool (b : Bool)
  | num (x : ν)
  | str (s : String)
  | arr (items : List (Json ν))
  | obj (members : List (String × Json ν))

/-- A hashable value, up to `==`: what tells keys of a dictionary and elements of a set apart. -/
inductive Key (ν : Type) where
  | none
  | num (x : ν)
  | str (s : String)
  deriving DecidableEq

namespace Json

variable {ν : Type}

/-- `value == text` for a string `text`. -/
def isStr (text : String) : Json ν → Bool
  | str s => s = text
  | _ => false

theorem isStr_iff {v : Json ν} {text : String} : v.isStr text ↔ v = .str text := by
  cases v with
  | str s => simp [isStr]
  | _ => simp [isStr]

variable [Number ν]

/-- The number a value stands for in arithmetic, if any. -/
def number? : Json ν → Option ν
  | bool b => some (if b then 1 else 0)
  | num x => some x
  | _ => none

/-- The truth value of a JSON value. -/
def truthy : Json ν → Bool
  | null => false
  | bool b => b
  | num x => x ≠ 0
  | str s => s ≠ ""
  | arr items => !items.isEmpty
  | obj members => !members.isEmpty

/-- The value as a key; lists and dictionaries are unhashable. -/
def key? : Json ν → Option (Key ν)
  | null => some .none
  | bool b => some (.num (if b then 1 else 0))
  | num x => some (.num x)
  | str s => some (.str s)
  | arr _ | obj _ => Option.none

end Json

/-- A key as the value it was made from. -/
def Key.toJson {ν : Type} : Key ν → Json ν
  | none => .null
  | num x => .num x
  | str s => .str s

@[simp] theorem Key.key?_toJson {ν : Type} [Number ν] (k : Key ν) : k.toJson.key? = some k := by
  cases k <;> rfl

end DistributedSync
