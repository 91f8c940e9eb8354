import Awl.Json.Draft

/-!
# Decoding JSON

A `Decoder α` turns a draft into an `α`. It also gets the number of arrays and objects that may
still be opened, and it hands out numbers to the nodes that it builds (`fresh`).

* `listOf`, `optional`, `text`, `flag`, `character`, `integer`: lists and single values.
* `record`: an object with named fields in any order, or an array of the fields in their own order.
* `oneOf`: one of several variants, by its name or as an object whose only key is its name.

Every decoder meets the parts of a draft in text order. Values of unknown fields are passed over,
and do not count as opened.
-/

namespace Awl.Json

/-- Decoding with a supply of numbers. -/
abbrev Decode := StateT Nat (Except DecodeError)

/-- A decoder of `α` for a given number of arrays and objects that may be opened. -/
abbrev Decoder (α : Type) := Nat → Draft → Decode α

/-- The most arrays and objects that a text may have open at one place. -/
def maxDepth : Nat := 127

/-- A number that was not handed out before. -/
def fresh : Decode Nat := modifyGet fun n => (n, n + 1)

def malformed {α : Type} (e : SyntaxError) : Decode α := throw (.malformed e)

/-- Fails because `d` is not what was expected. -/
def mismatch {α : Type} (expected : String) (d : Draft) : Decode α :=
  match d.found with
  | .error e => malformed e
  | .ok found => throw (.invalidType found expected)

/-! ## Single values -/

def text : Decoder String := fun _ d =>
  match d with
  | .string (.ok s) => pure s
  | d => mismatch "a string" d

def flag : Decoder Bool := fun _ d =>
  match d with
  | .bool b => pure b
  | d => mismatch "a boolean" d

/-- A string of exactly one character. -/
def character : Decoder Char := fun _ d =>
  match d with
  | .string (.ok s) =>
    match s.toList with
    | [c] => pure c
    | _ => throw (.invalidValue (.string s) "a character")
  | d => mismatch "a character" d

/-- An integer from `low` to `high`. -/
def integer (expected : String) (low high : Int) : Decoder Int := fun _ d =>
  let ranged (n : Number) (value : Int) : Decode Int :=
    if low ≤ value ∧ value ≤ high then pure value
    else throw (.invalidValue (.number n) expected)
  match d with
  | .number (.ok (.natural n)) => ranged (.natural n) n
  | .number (.ok (.negative n)) => ranged (.negative n) (-n)
  | d => mismatch expected d

/-- Nothing but `null`. -/
def nothing : Draft → Decode Unit
  | .null => pure ()
  | d => mismatch "unit" d

/-- A value, or `null` for none. -/
def optional {α : Type} (value : Decoder α) : Decoder (Option α) := fun depth d =>
  match d with
  | .null => pure none
  | d => some <$> value depth d

/-! ## Lists -/

/-- The problem of an array that has no more readable items. -/
def ArrayEnd.exhausted : ArrayEnd → Decode Unit
  | .closed => pure ()
  | .ended => malformed .endInList
  | .stray => malformed .expectedListCommaOrEnd
  | .commaClosed => malformed .trailingComma
  | .commaEnded => malformed .endInValue

def listOf {α : Type} (item : Decoder α) : Decoder (List α) := fun depth d =>
  match d, depth with
  | .array .., 0 => malformed .nestedTooDeep
  | .array items ending, depth + 1 => do
    let values ← items.mapM (item depth)
    ending.exhausted
    return values
  | d, _ => mismatch "a sequence" d

/-! ## Records -/

structure RecordField (α : Type) where
  name : String
  /-- Stands in for the field when it is absent. A field without one is required. -/
  absent : Option α
  read : Decoder α

def required {α : Type} (name : String) (read : Decoder α) : RecordField α :=
  { name, absent := none, read }

def withDefault {α : Type} (name : String) (absent : α) (read : Decoder α) : RecordField α :=
  { name, absent := some absent, read }

/-- The fields of a record in their own order, by the types of their values. -/
inductive Fields : List Type → Type 1 where
  | nil : Fields []
  | cons {α : Type} {ts : List Type} (field : RecordField α) (rest : Fields ts) : Fields (α :: ts)

/-- A value of each type. -/
def Values : List Type → Type
  | [] => Unit
  | α :: ts => α × Values ts

/-- The values that have been read so far. -/
def PartialValues : List Type → Type
  | [] => Unit
  | α :: ts => Option α × PartialValues ts

namespace Fields

def count {ts : List Type} : Fields ts → Nat
  | nil => 0
  | cons _ rest => rest.count + 1

/-- Nothing has been read. -/
def unread {ts : List Type} : Fields ts → PartialValues ts
  | nil => ()
  | cons _ rest => (none, rest.unread)

/-- Reads the field called `key`. The result is `none` if there is no such field. A field that has
been read already is a duplicate. -/
def fill {ts : List Type} (fields : Fields ts) (depth : Nat) (key : String) (d : Draft)
    (values : PartialValues ts) : Decode (Option (PartialValues ts)) :=
  match fields, values with
  | nil, _ => pure none
  | cons field rest, (value, values) =>
    if field.name == key then
      match value with
      | some _ => throw (.duplicateField key)
      | none => do
        let value ← field.read depth d
        return some (some value, values)
    else do
      let filled ← rest.fill depth key d values
      return filled.map fun values => (value, values)

/-- The values of all fields, once the whole record has been read. -/
def finish {ts : List Type} (fields : Fields ts) (values : PartialValues ts) :
    Decode (Values ts) :=
  match fields, values with
  | nil, _ => pure ()
  | cons field rest, (value, values) =>
    match value <|> field.absent with
    | none => throw (.missingField field.name)
    | some value => do
      let values ← rest.finish values
      return (value, values)

/-- Reads the members of an object. -/
def fromMembers {ts : List Type} (fields : Fields ts) (depth : Nat)
    (values : PartialValues ts) :
    List (Except SyntaxError String × Draft) → Decode (PartialValues ts)
  | [] => pure values
  | (.error e, _) :: _ => malformed e
  | (.ok key, d) :: members => do
    match ← fields.fill depth key d values with
    | some values => fromMembers fields depth values members
    | none =>
      match d.skipped with
      | some e => malformed e
      | none => fromMembers fields depth values members

/-- Reads the fields from the items of an array, from the field at `position` on. The second part
of the result is the items that are left over. -/
def fromItems {ts : List Type} (expected : String) (depth : Nat) (ending : ArrayEnd)
    (fields : Fields ts) (position : Nat) (items : List Draft) :
    Decode (Values ts × List Draft) :=
  match fields, items with
  | nil, items => pure ((), items)
  | cons field rest, d :: items => do
    let value ← field.read depth d
    let (values, items) ← fromItems expected depth ending rest (position + 1) items
    return ((value, values), items)
  | cons field rest, [] => do
    ending.exhausted
    match field.absent with
    | none => throw (.invalidLength position expected)
    | some value =>
      let (values, items) ← fromItems expected depth ending rest (position + 1) []
      return ((value, values), items)

end Fields

/-- The end of an object, after all its members. -/
def ObjectEnd.exhausted : ObjectEnd → Decode Unit
  | .closed => pure ()
  | .ended => malformed .endInObject
  | .stray => malformed .expectedObjectCommaOrEnd
  | .commaClosed => malformed .trailingComma
  | .commaEnded => malformed .endInValue
  | .noKey => malformed .keyMustBeString
  | .badKey e _ => malformed e

/-- The end of an array, after the fields of a record: nothing may be left over. -/
def ArrayEnd.afterFields (ending : ArrayEnd) (left : List Draft) : Decode Unit :=
  match left, ending with
  | _ :: _, _ => malformed .trailingCharacters
  | [], .closed => pure ()
  | [], .ended => malformed .endInList
  | [], .stray => malformed .trailingCharacters
  | [], .commaClosed => malformed .trailingComma
  | [], .commaEnded => malformed .trailingCharacters

def record {ts : List Type} (title : String) (fields : Fields ts) : Decoder (Values ts) :=
  fun depth d =>
    match d, depth with
    | .array .., 0 => malformed .nestedTooDeep
    | .object .., 0 => malformed .nestedTooDeep
    | .array items ending, depth + 1 => do
      let expected := title ++ " with " ++ toString fields.count ++ " elements"
      let (values, left) ← fields.fromItems expected depth ending 0 items
      ending.afterFields left
      return values
    | .object members ending, depth + 1 => do
      let values ← fields.fromMembers depth fields.unread members
      ending.exhausted
      fields.finish values
    | d, _ => mismatch title d

/-! ## Variants -/

inductive Payload (α : Type) where
  /-- The variant has no data. -/
  | unit (value : α)
  /-- The variant holds one value. -/
  | single (read : Decoder α)
  /-- The variant holds the fields of a record. -/
  | fields (read : Decoder α)

/-- The variant called `name`. -/
def choose {α : Type} (variants : List (String × Payload α)) (name : String) :
    Decode (Payload α) :=
  match variants.lookup name with
  | some payload => pure payload
  | none => throw (.unknownVariant name (variants.map (·.1)))

/-- A variant that is only named. It must have no data. -/
def Payload.named {α : Type} : Payload α → Decode α
  | .unit value => pure value
  | .single _ => throw (.invalidType .unitVariant "newtype variant")
  | .fields _ => throw (.invalidType .unitVariant "struct variant")

/-- The value of a variant from its data. -/
def Payload.decode {α : Type} (depth : Nat) (d : Draft) : Payload α → Decode α
  | .unit value => do
    nothing d
    return value
  | .single read => read depth d
  | .fields read => read depth d

/-- The end of an object with a variant: there may be no second member. -/
def ObjectEnd.afterVariant (ending : ObjectEnd)
    (left : List (Except SyntaxError String × Draft)) : Decode Unit :=
  match left, ending with
  | [], .closed => pure ()
  | [], .ended => malformed .endInObject
  | _, _ => malformed .expectedValue

/-- The end of an object that has no readable member, where a variant is expected. -/
def ObjectEnd.noVariant {α : Type} : ObjectEnd → Decode α
  | .ended => malformed .endInObject
  | .noKey => malformed .keyMustBeString
  | .badKey e _ => malformed e
  | _ => malformed .expectedValue

def oneOf {α : Type} (variants : List (String × Payload α)) : Decoder α := fun depth d =>
  match d, depth with
  | .string (.ok name), _ => do
    let payload ← choose variants name
    payload.named
  | .object .., 0 => malformed .nestedTooDeep
  | .object [] ending, _ + 1 => ending.noVariant
  | .object ((.error e, _) :: _) _, _ + 1 => malformed e
  | .object ((.ok name, d) :: left) ending, depth + 1 => do
    let payload ← choose variants name
    let value ← payload.decode depth d
    ending.afterVariant left
    return value
  | .string (.error e), _ => malformed e
  | .badString e _, _ => malformed e
  | .noColon e, _ => malformed e
  | .missing, _ => malformed .endInValue
  | _, _ => malformed .expectedValue

/-! ## Documents -/

/-- Decodes a whole document. Nothing may follow its value. -/
def Document.decode {α : Type} (read : Decoder α) (document : Document) : Decode α := do
  let value ← read maxDepth document.value
  if document.trailing then malformed .trailingCharacters else return value

end Awl.Json
