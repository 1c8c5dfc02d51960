import Logmark.Json.Skip

/-!
Arrays and records that are kept. A record is written as an object, whose members may come in any
order and among others, or as the array of its members' values. Arrays and records may stand inside
each other only so deep: where no level is left, opening one is a fault.
-/
namespace Logmark.Json

/-- The fault of a value that is not of the type that is wanted. A token must be read to its end
before its type is known; an array or object shows it at once. -/
def typeFault (s : Text) : Fault :=
  match skipSpace s with
  | [] => .truncated
  | '[' :: _ => .mistyped
  | '\x7b' :: _ => .mistyped
  | '"' :: s =>
    match readString s with
    | .ok _ => .mistyped
    | .error fault => fault
  | c :: s =>
    if c = '-' ∨ c.isDigit then
      match readNumber (c :: s) with
      | .ok _ => .mistyped
      | .error fault => fault
    else
      match skipScalar (c :: s) with
      | .ok _ => .mistyped
      | .error fault => fault

/-- Reads a string. -/
def readText : Reader Text := fun s =>
  match skipSpace s with
  | '"' :: s => readString s
  | s => .error (typeFault s)

/-- Reads a number that is a count. -/
def readCount : Reader Nat := fun s =>
  match skipSpace s with
  | [] => .error .truncated
  | c :: s =>
    if c = '-' ∨ c.isDigit then do
      let (number, s) ← readNumber (c :: s)
      match number.count? with
      | some n => return (n, s)
      | none => throw .mistyped
    else .error (typeFault (c :: s))

/-- What comes next in an open array or object: its end, with the text behind it, or more. -/
inductive Next (α : Type) where
  | done (rest : Text)
  | more (next : α)
  deriving DecidableEq, Repr

/-- Looks for the next item of an open array. -/
def nextItem (first : Bool) (s : Text) : Except Fault (Next Text) :=
  match skipSpace s with
  | [] => .error .truncated
  | ']' :: s => .ok (.done s)
  | c :: s =>
    if first then .ok (.more (c :: s))
    else if c = ',' then
      match skipSpace s with
      | [] => .error .truncated
      | ']' :: _ => .error .malformed
      | s => .ok (.more s)
    else .error .malformed

/-- Reads the items of an open array. -/
def readItems (item : Reader α) : Nat → Bool → Reader (List α)
  | 0, _, _ => .error .malformed
  | turns + 1, first, s => do
    match ← nextItem first s with
    | .done s => return ([], s)
    | .more s =>
      let (a, s) ← item s
      let (rest, s) ← readItems item turns false s
      return (a :: rest, s)

/-- Reads an array whose items are read by `item`, or fails to open one where no level is left. -/
def readArray (turns : Nat) (item? : Option (Reader α)) : Reader (List α) := fun s =>
  match skipSpace s with
  | '[' :: s =>
    match item? with
    | none => .error .malformed
    | some item => readItems item turns true s
  | s => .error (typeFault s)

/-- A member that a record keeps: its name, whether a partly read record has it already, and how its
value is read into one. -/
structure Member (σ : Type) where
  name : Text
  isRead : σ → Bool
  read : σ → Reader σ

/-- The member that is read by `value`, seen through `get?` and put in place by `set`. -/
def Member.of (name : Text) (value : Reader α) (get? : σ → Option α) (set : σ → α → σ) :
    Member σ where
  name := name
  isRead record := (get? record).isSome
  read record s := do
    let (a, s) ← value s
    return (set record a, s)

/-- Reads the values of `members`, in their order, from an open array. The array may end before the
last of them, but must not go on after it. -/
def readElements : List (Member σ) → Bool → σ → Reader σ
  | [], _, record, s =>
    match skipSpace s with
    | [] => .error .truncated
    | ']' :: s => .ok (record, s)
    | _ => .error .malformed
  | member :: members, first, record, s => do
    match ← nextItem first s with
    | .done s => return (record, s)
    | .more s =>
      let (record, s) ← member.read record s
      readElements members false record s

/-- Looks for the next key of an open object, and what is behind it. -/
def nextKey (first : Bool) (s : Text) : Except Fault (Next (Text × Text)) :=
  match skipSpace s with
  | [] => .error .truncated
  | '\x7d' :: s => .ok (.done s)
  | c :: s =>
    if first ∨ c = ',' then
      match (if first then c :: s else skipSpace s) with
      | [] => .error .truncated
      | '"' :: s => do
        let (key, s) ← readString s
        return .more (key, s)
      | _ => .error .malformed
    else .error .malformed

/-- Reads the members of an open object: those in `members` at most once, others as often as they
come. -/
def readMembers (members : List (Member σ)) : Nat → Bool → σ → Reader σ
  | 0, _, _, _ => .error .malformed
  | turns + 1, first, record, s => do
    match ← nextKey first s with
    | .done s => return (record, s)
    | .more (key, s) =>
      match members.find? (·.name = key) with
      | some member =>
        if member.isRead record then throw .mistyped
        let s ← skipColon s
        let (record, s) ← member.read record s
        readMembers members turns false record s
      | none =>
        let s ← skipColon s
        let s ← skipValue turns s
        readMembers members turns false record s

/-- Reads a record with the given members, starting from `empty`; `finish` fails if a member is
missing. Where no level is left there are no members, and the record cannot be opened. -/
def readRecord (turns : Nat) (members? : Option (List (Member σ))) (empty : σ)
    (finish : σ → Option α) : Reader α := fun s => do
  let (record, s) ←
    match skipSpace s, members? with
    | '[' :: s, some members => readElements members true empty s
    | '\x7b' :: s, some members => readMembers members turns true empty s
    | '[' :: _, none => throw .malformed
    | '\x7b' :: _, none => throw .malformed
    | s, _ => throw (typeFault s)
  match finish record with
  | some a => return (a, s)
  | none => throw .mistyped

/-- How many arrays and records that are kept may be open at once. -/
def maxDepth : Nat := 127

end Logmark.Json
