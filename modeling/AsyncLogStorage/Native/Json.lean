import AsyncLogStorage.ForStd.Bytes

/-!
# JSON values

The part of JsonCpp's `Json::Value` that the server uses, and `JsonUtil` of `Util.hpp`
over JsonCpp's writer and reader, which are parameters. A call that throws a
`Json::LogicError` is `none`. The reader is taken not to throw, so a text is never nested as
deep as its `stackLimit`.
-/

namespace Storage

namespace Json

inductive Value where
  | null
  | bool (b : Bool)
  | int (n : Int)
  | real (value : Rat)
  | string (s : Bytes)
  | array (elements : List Value)
  | object (members : List (Bytes × Value))

namespace Value

/-- `size()`: the number of elements or members. -/
def size : Value → Nat
  | .array elements => elements.length
  | .object members => members.length
  | _ => 0

/-- `operator[](int)` on a value that is null or an array. -/
def element (i : Nat) : Value → Option Value
  | .null => some .null
  | .array elements => some (elements[i]?.getD .null)
  | _ => none

/-- `operator[](const char *)` on a value that is null or an object. -/
def member (key : Bytes) : Value → Option Value
  | .null => some .null
  | .object members => some ((members.lookup key).getD .null)
  | _ => none

/-- `item[key] = value` for the members of an object, which are sorted by their keys. -/
def setMember (key : Bytes) (value : Value) : List (Bytes × Value) → List (Bytes × Value)
  | [] => [(key, value)]
  | (k, v) :: members =>
    if key = k then (key, value) :: members
    else if key < k then (key, value) :: (k, v) :: members
    else (k, v) :: setMember key value members

/-- The values of a 32-bit `int`. -/
def InIntRange (n : Int) : Prop := -2147483648 ≤ n ∧ n ≤ 2147483647

instance (n : Int) : Decidable (InIntRange n) := inferInstanceAs (Decidable (_ ∧ _))

/-- `asInt()`. -/
def asInt : Value → Option Int
  | .null => some 0
  | .bool b => some (if b then 1 else 0)
  | .int n => if InIntRange n then some n else none
  | .real value =>
    if -2147483648 ≤ value ∧ value ≤ 2147483647 then some (value.num.tdiv value.den) else none
  | _ => none

end Value

end Json

/-- The writer and the reader of JsonCpp, and how it prints a double. -/
structure JsonCpp where
  /-- `StreamWriter::write` with `emitUTF8`, `none` where it reports an error. -/
  write : Json.Value → Option Bytes
  /-- `CharReader::parse`: whether the text is valid, and what the value then holds. -/
  parse : Bytes → Bool × Json.Value
  realToString : Rat → Bytes

/-- `asString()`. -/
def Json.Value.asString (lib : JsonCpp) : Json.Value → Option Bytes
  | .null => some []
  | .bool b => some (Bytes.ofString (if b then "true" else "false"))
  | .int n => some (Bytes.ofString (toString n))
  | .real value => some (lib.realToString value)
  | .string s => some s
  | _ => none

namespace JsonUtil

/-- `Serialize`: the result, and what `*str` then holds. -/
def serialize (lib : JsonCpp) (val : Json.Value) (str : Bytes) : Bool × Bytes :=
  match lib.write val with
  | some text => (true, text)
  | none => (false, str)

/-- `UnSerialize`, which returns `false` in every case. -/
def unSerialize (lib : JsonCpp) (str : Bytes) : Bool × Json.Value :=
  (false, (lib.parse str).2)

end JsonUtil

end Storage
