import Firebase.Lib.OrdMap
import Firebase.Firestore.Model.DocumentKey

/-!
# Field values

`model::FieldValue` and `model::ObjectValue` (`field_value.cc`), the contents of
documents, with the comparisons of `util/comparison.cc` that queries use.

The map of an object is a sorted map in the source; here it is its list of
entries, and the operations below insert and erase in order.  Doubles are
`Float`, which has IEEE semantics; what the source does to their bits is done to
`Float.toBits`.
-/

namespace Firebase.Firestore.Model

open Lib Util

/-! ## Paths and the data of references and points -/

/-- `model::FieldPath`: the names of a field, outermost first. -/
abbrev FieldPath := List Bytes

def FieldPath.keyFieldPath : FieldPath := [ascii "__name__"]

def FieldPath.isKeyFieldPath (path : FieldPath) : Bool :=
  path.length == 1 && path.head? == some (ascii "__name__")

structure DatabaseId where
  projectId : Bytes
  databaseId : Bytes
deriving DecidableEq

def DatabaseId.compareTo (lhs rhs : DatabaseId) : Ordering :=
  (compare lhs.projectId rhs.projectId).then (compare lhs.databaseId rhs.databaseId)

structure GeoPoint where
  latitude : Float
  longitude : Float
  /-- What the constructor asserts. -/
  valid : (latitude.isNaN = false ∧ -90 ≤ latitude ∧ latitude ≤ 90) ∧
    (longitude.isNaN = false ∧ -180 ≤ longitude ∧ longitude ≤ 180)
deriving DecidableEq

def GeoPoint.lt (lhs rhs : GeoPoint) : Bool :=
  if lhs.latitude == rhs.latitude then lhs.longitude < rhs.longitude
  else lhs.latitude < rhs.latitude

/-- `DefaultComparator`, which knows nothing but `operator<`. -/
def defaultCompare {α : Type} (lt : α → α → Bool) (left right : α) : Ordering :=
  if lt left right then .lt else if lt right left then .gt else .eq

/-! ## Numbers -/

/-- `Comparator<double>`: a NaN is equal to itself and comes before any other number. -/
def compareDouble (left right : Float) : Ordering :=
  if left < right then .lt
  else if left > right then .gt
  else if left == right then .eq
  else if !right.isNaN then .lt
  else if !left.isNaN then .gt
  else .eq

def truncate (value : Float) : Int :=
  let bits := value.toBits.toNat
  let exponent : Nat := bits / 2 ^ 52 % 2 ^ 11
  let fraction : Nat := bits % 2 ^ 52
  -- The magnitude in units of `2 ^ -1074`, the least positive double.
  let units : Nat := if exponent = 0 then fraction else (2 ^ 52 + fraction) * 2 ^ (exponent - 1)
  let magnitude : Nat := units / 2 ^ 1074
  if bits / 2 ^ 63 = 1 then -(magnitude : Int) else magnitude

def compareMixedNumber (doubleValue : Float) (int64Value : Int64) : Ordering :=
  if doubleValue < Float.ofInt Int64.minValue.toInt then .lt
  else if doubleValue ≥ Float.ofInt Int64.maxValue.toInt then .gt
  else if doubleValue.isNaN then .lt
  else
    -- The integers may be equal because of rounding.
    (compare (truncate doubleValue) int64Value.toInt).then
      (compareDouble doubleValue (Float.ofInt int64Value.toInt))

def doubleBitwiseEquals (left right : Float) : Bool :=
  (left.isNaN && right.isNaN) || left.toBits == right.toBits

/-! ## Values -/

inductive FieldType where
  | null | boolean | integer | double | timestamp | serverTimestamp | string | blob | reference
  | geoPoint | array | object
deriving DecidableEq

inductive FieldValue where
  | null
  | boolean (value : Bool)
  | integer (value : Int64)
  | double (value : Float)
  | timestamp (value : Timestamp)
  | serverTimestamp (localWriteTime : Timestamp) (previousValue : Option FieldValue)
  | string (value : Bytes)
  | blob (value : Bytes)
  | reference (databaseId : DatabaseId) (key : DocumentKey)
  | geoPoint (value : GeoPoint)
  | array (value : List FieldValue)
  | object (value : List (Bytes × FieldValue))

namespace FieldValue

def type : FieldValue → FieldType
  | null => .null
  | boolean _ => .boolean
  | integer _ => .integer
  | double _ => .double
  | timestamp _ => .timestamp
  | serverTimestamp _ _ => .serverTimestamp
  | string _ => .string
  | blob _ => .blob
  | reference _ _ => .reference
  | geoPoint _ => .geoPoint
  | array _ => .array
  | object _ => .object

def isNumber (value : FieldValue) : Bool := value.type == .integer || value.type == .double

def fromDouble (value : Float) : FieldValue :=
  if value.isNaN then double (Float.ofBits 0x7ff8000000000000) else double value

def comparable : FieldType → FieldType → Bool
  | .integer, rhs | .double, rhs => rhs == .integer || rhs == .double
  | .timestamp, rhs | .serverTimestamp, rhs => rhs == .timestamp || rhs == .serverTimestamp
  | lhs, rhs => lhs == rhs

/-- `BaseValue::CompareTypes` of values that are not comparable: the types are in order. -/
def compareTypes (lhs rhs : FieldType) : Ordering := compare lhs.ctorIdx rhs.ctorIdx

mutual

def compareTo (lhs rhs : FieldValue) : Ordering :=
  match lhs, rhs with
  | null, null => .eq
  | boolean a, boolean b => compare a b
  | integer a, integer b => compare a b
  | double a, double b => compareDouble a b
  | integer a, double b => (compareMixedNumber b a).swap
  | double a, integer b => compareMixedNumber a b
  | timestamp a, timestamp b => compare a b
  | timestamp _, serverTimestamp _ _ => .lt
  | serverTimestamp a _, serverTimestamp b _ => compare a b
  | serverTimestamp _ _, timestamp _ => .gt
  | string a, string b => compare a b
  | blob a, blob b => compare a b
  | reference database key, reference database' key' =>
    (database.compareTo database').then (compare key key')
  | geoPoint a, geoPoint b => defaultCompare GeoPoint.lt a b
  | array a, array b => compareArrays a b
  | object a, object b => compareMaps a b
  | a, b => compareTypes a.type b.type
termination_by sizeOf lhs + sizeOf rhs

def compareArrays (lhs rhs : List FieldValue) : Ordering :=
  match lhs, rhs with
  | [], [] => .eq
  | [], _ :: _ => .lt
  | _ :: _, [] => .gt
  | a :: lhs, b :: rhs => (compareTo a b).then (compareArrays lhs rhs)
termination_by sizeOf lhs + sizeOf rhs

/-- `CompareContainer` of maps.  Entries have no `CompareTo` of their own, so that they are
compared with the `operator<` of pairs, in both directions. -/
def compareMaps (lhs rhs : List (Bytes × FieldValue)) : Ordering :=
  match lhs, rhs with
  | [], [] => .eq
  | [], _ :: _ => .lt
  | _ :: _, [] => .gt
  | (name, a) :: lhs, (name', b) :: rhs =>
    if name < name' ∨ (¬ name' < name ∧ compareTo a b = .lt) then .lt
    else if name' < name ∨ (¬ name < name' ∧ compareTo b a = .lt) then .gt
    else compareMaps lhs rhs
termination_by sizeOf lhs + sizeOf rhs

end

mutual

/-- `operator==` on values: doubles by their bits, server timestamps by their local write time. -/
def equals : FieldValue → FieldValue → Bool
  | null, null => true
  | boolean a, boolean b => a == b
  | integer a, integer b => a == b
  | double a, double b => doubleBitwiseEquals a b
  | timestamp a, timestamp b => a == b
  | serverTimestamp a _, serverTimestamp b _ => a == b
  | string a, string b => a == b
  | blob a, blob b => a == b
  | reference database key, reference database' key' => database == database' && key == key'
  | geoPoint a, geoPoint b => !(GeoPoint.lt a b || GeoPoint.lt b a)
  | array a, array b => equalArrays a b
  | object a, object b => equalMaps a b
  | _, _ => false

def equalArrays : List FieldValue → List FieldValue → Bool
  | [], [] => true
  | a :: lhs, b :: rhs => equals a b && equalArrays lhs rhs
  | _, _ => false

def equalMaps : List (Bytes × FieldValue) → List (Bytes × FieldValue) → Bool
  | [], [] => true
  | (name, a) :: lhs, (name', b) :: rhs => name == name' && equals a b && equalMaps lhs rhs
  | _, _ => false

end

end FieldValue

/-! ## Objects -/

/-- `model::ObjectValue`: the entries of its map. -/
abbrev ObjectValue := List (Bytes × FieldValue)

namespace ObjectValue

def find (object : ObjectValue) (name : Bytes) : Option FieldValue :=
  (List.find? (fun entry => entry.1 == name) object).map Prod.snd

def setChild (object : ObjectValue) (childName : Bytes) (value : FieldValue) : ObjectValue :=
  OrdMap.insertEntry childName value object

def childObject (object : ObjectValue) (childName : Bytes) : ObjectValue :=
  match object.find childName with
  | some (.object child) => child
  | _ => []

def setBelow (object : ObjectValue) (childName : Bytes) (value : FieldValue) :
    FieldPath → ObjectValue
  | [] => object.setChild childName value
  | name :: rest =>
    object.setChild childName (.object ((object.childObject childName).setBelow name value rest))

def set (object : ObjectValue) (value : FieldValue) : FieldPath → Hard ObjectValue
  | [] => .error ⟨"Cannot set field for empty path on FieldValue"⟩
  | childName :: rest => .ok (object.setBelow childName value rest)

def deleteBelow (object : ObjectValue) (childName : Bytes) : FieldPath → ObjectValue
  | [] => object.filter fun entry => entry.1 ≠ childName
  | name :: rest =>
    match object.find childName with
    | some (.object child) => object.setChild childName (.object (deleteBelow child name rest))
    | _ => object

def delete (object : ObjectValue) : FieldPath → Hard ObjectValue
  | [] => .error ⟨"Cannot delete field for empty path on FieldValue"⟩
  | childName :: rest => .ok (object.deleteBelow childName rest)

def getFrom : FieldValue → FieldPath → Option FieldValue
  | current, [] => some current
  | .object entries, name :: path =>
    match find entries name with
    | some child => getFrom child path
    | none => none
  | _, _ :: _ => none

def get (object : ObjectValue) (path : FieldPath) : Option FieldValue :=
  getFrom (.object object) path

end ObjectValue

end Firebase.Firestore.Model
