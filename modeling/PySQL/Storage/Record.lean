import PySQL.Lib.Fallible
import PySQL.Query.Catalog
import PySQL.Storage.PageBytes

/-!
# Records

Column types and the byte format of a row: a bitmap of the NULL columns, then the bytes of each
other column.
-/

namespace PySQL.Storage

open Query

structure RecordId where
  pageId : ℕ
  slotIndex : ℕ
deriving DecidableEq, Repr

inductive DataType where
  | boolean
  | integer
  | float
  | text
  | varchar (maxLength : ℤ)
  | char (length : ℤ)
  | blob
  | timestamp
deriving DecidableEq, Repr

/-! ## Texts and numbers as bytes -/

def encodeUtf8 (s : String) : Bytes := s.toUTF8.data.toList

/-- A text that is no UTF-8 raises UnicodeDecodeError. -/
def decodeUtf8 (bs : Bytes) : Except PyError String :=
  match String.fromUTF8? ⟨bs.toArray⟩ with
  | some s => .ok s
  | none => .error (.valueError none)

/-- `struct.pack` of an unsigned number. -/
def packUnsigned (width : ℕ) (n : ℤ) : Except PyError Bytes :=
  if 0 ≤ n ∧ n < 256 ^ width then .ok (packBE width n) else .error .structError

/-- `struct.unpack` of so many bytes. -/
def unpackUnsigned (width : ℕ) (data : Bytes) : Except PyError ℕ :=
  if data.length = width then .ok (unpackBE data) else .error .structError

/-- `n ^ (1 << 63)` on a number of any size. -/
def flipSign (n : ℤ) : ℤ := if n / 2 ^ 63 % 2 = 0 then n + 2 ^ 63 else n - 2 ^ 63

/-- The sort-preserving pattern of a float. -/
def encodeFloat (x : PyFloat) : BitVec 64 :=
  if x.bits.msb then ~~~x.bits else x.bits ^^^ BitVec.ofNat 64 (2 ^ 63)

def decodeFloat (bits : BitVec 64) : PyFloat :=
  ⟨if bits.msb then bits ^^^ BitVec.ofNat 64 (2 ^ 63) else ~~~bits⟩

/-- `bytes(v)` -/
def toBytes : Value → Except PyError Bytes
  | .bytes bs => .ok bs
  | v =>
    match v.integer with
    | some n => if n < 0 then .error (.valueError none) else .ok (List.replicate n.toNat 0)
    | none => .error .typeError

namespace DataType

/-- `type_from_string` -/
def fromString (py : Py) (typeStr : String) : Except PyError DataType :=
  let name := py.upper (py.strip typeStr)
  -- the number in the first pair of parentheses
  let parameter (default : ℤ) : Except PyError ℤ :=
    match name.toList.dropWhile (· ≠ '(') with
    | [] => .ok default
    | _ :: rest =>
      let digits := ((rest.takeWhile (· ≠ '(')).reverse.dropWhile (· = ')')).reverse
      (Value.str (String.ofList digits)).toInt py
  if name ∈ ["INTEGER", "INT"] then .ok .integer
  else if name ∈ ["FLOAT", "DOUBLE", "REAL"] then .ok .float
  else if name ∈ ["BOOLEAN", "BOOL"] then .ok .boolean
  else if name = "TEXT" then .ok .text
  else if name = "BLOB" then .ok .blob
  else if name = "TIMESTAMP" then .ok .timestamp
  else if "VARCHAR".toList.isPrefixOf name.toList then (parameter 255).map .varchar
  else if "CHAR".toList.isPrefixOf name.toList then (parameter 1).map .char
  else .error (.valueError (some ("Unknown type: " ++ name)))

def serialize (py : Py) : DataType → Value → Except PyError Bytes
  | .boolean, v => .ok [if v.truthy then 1 else 0]
  | .integer, v | .timestamp, v => do packUnsigned 8 (flipSign (← v.toInt py))
  | .float, v => do return packBE 8 (encodeFloat (← v.toFloat py)).toNat
  | .text, v => do
    let encoded := encodeUtf8 (v.toStr py)
    return (← packUnsigned 4 encoded.length) ++ encoded
  | .varchar maxLength, v => do
    let encoded := Query.slice (encodeUtf8 (v.toStr py)) 0 maxLength
    return (← packUnsigned 2 encoded.length) ++ encoded
  | .char length, v =>
    let encoded := Query.slice (encodeUtf8 (v.toStr py)) 0 length
    .ok (encoded ++ List.replicate (length - encoded.length).toNat 0x20)
  | .blob, v => do
    let raw ← toBytes v
    return (← packUnsigned 4 raw.length) ++ raw

def deserialize (py : Py) : DataType → Bytes → Except PyError Value
  | .boolean, data => do return .bool ((← unpackUnsigned 1 (data.take 1)) ≠ 0)
  | .integer, data | .timestamp, data => do
    return .int (flipSign (← unpackUnsigned 8 (data.take 8)))
  | .float, data => .ok (.float (decodeFloat (BitVec.ofNat 64 (unpackBE (data.take 8)))))
  | .text, data => do
    let length ← unpackUnsigned 4 (data.take 4)
    return .str (← decodeUtf8 ((data.drop 4).take length))
  | .varchar _, data => do
    let length ← unpackUnsigned 2 (data.take 2)
    return .str (← decodeUtf8 ((data.drop 2).take length))
  | .char length, data => do
    return .str (py.rstrip (← decodeUtf8 (Query.slice data 0 length)))
  | .blob, data => do
    let length ← unpackUnsigned 4 (data.take 4)
    return .bytes ((data.drop 4).take length)

/-- The bytes that a stored value takes. -/
def storageSize (py : Py) : DataType → Value → Except PyError ℤ
  | .boolean, _ => .ok 1
  | .integer, _ | .timestamp, _ | .float, _ => .ok 8
  | .text, v => .ok (4 + (encodeUtf8 (v.toStr py)).length)
  | .varchar maxLength, v => .ok (2 + min ((encodeUtf8 (v.toStr py)).length : ℤ) maxLength)
  | .char length, _ => .ok length
  | .blob, v => do return 4 + (← toBytes v).length

end DataType

/-! ## Rows -/

structure TableSchema where
  tableName : String
  columnNames : List String
  columnTypes : List DataType
  primaryKey : Option String

/-- `TableInfo.get_schema` -/
def getSchema (py : Py) (info : TableInfo) : Except PyError TableSchema := do
  let columnTypes ← Lib.mapE (fun c => DataType.fromString py c.type) info.columns
  return {
    tableName := info.name
    columnNames := info.columnNames
    columnTypes
    primaryKey := info.primaryKey }

namespace RecordSerializer

def nullBitmapSize (columns : ℕ) : ℕ := (columns + 7) / 8

/-- The bit of a NULL column is set. -/
def nullBitmap (values : Row) : Bytes :=
  (List.range (nullBitmapSize values.length)).map fun byte =>
    UInt8.ofNat (((List.range 8).map fun bit =>
      if (values[8 * byte + bit]?).elim false Value.isNull then 2 ^ bit else 0).sum)

def serializeColumns (py : Py) : List DataType → Row → Except PyError Bytes
  | _, [] => .ok []
  | [], v :: vs => if v.isNull then serializeColumns py [] vs else .error .indexError
  | t :: ts, v :: vs => do
    let part ← if v.isNull then pure [] else t.serialize py v
    return part ++ (← serializeColumns py ts vs)

def serialize (py : Py) (schema : TableSchema) (values : Row) : Except PyError Bytes :=
  if values.length ≠ schema.columnNames.length then
    .error (.valueError (some ("Expected " ++ toString schema.columnNames.length ++
      " values, got " ++ toString values.length)))
  else do return nullBitmap values ++ (← serializeColumns py schema.columnTypes values)

/-- Read the columns that remain, from the byte where the next one starts. -/
def deserializeColumns (py : Py) (bitmap : Bytes) (data : Bytes) :
    ℕ → ℤ → List DataType → Except PyError Row
  | _, _, [] => .ok []
  | i, offset, t :: ts =>
    match bitmap[i / 8]? with
    | none => .error .indexError
    | some byte =>
      if byte.toNat / 2 ^ (i % 8) % 2 = 1 then do
        return .null :: (← deserializeColumns py bitmap data (i + 1) offset ts)
      else do
        let v ← t.deserialize py (Query.slice data offset data.length)
        let size ← t.storageSize py v
        return v :: (← deserializeColumns py bitmap data (i + 1) (offset + size) ts)

def deserialize (py : Py) (schema : TableSchema) (data : Bytes) : Except PyError Row :=
  let size := nullBitmapSize schema.columnNames.length
  deserializeColumns py (data.take size) data 0 size schema.columnTypes

end RecordSerializer

end PySQL.Storage
