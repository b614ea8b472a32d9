/-!
# TOML values and tables

A table remembers how it came about, because that decides how it may still be extended:

* by its own header, or as the root;
* by a longer header only, and then a header of its own may follow;
* by dotted keys, and then only dotted keys of the same table may extend it;
* between braces, and then it is closed.
-/
namespace Detachment.Toml

inductive Origin where
  | header
  | implied
  | dotted
  | braces
  deriving DecidableEq, Repr

inductive Value where
  | text (s : String)
  | integer (n : Int)
  | float
  | boolean (b : Bool)
  /-- A date, a time or both. -/
  | moment
  | array (items : List Value)
  | table (origin : Origin) (entries : List (String × Value))
  /-- The tables under the headers with doubled brackets, latest first. -/
  | tables (items : List (Origin × List (String × Value)))
  deriving Repr

structure Table where
  origin : Origin
  entries : List (String × Value)
  deriving Repr

namespace Table

def empty (origin : Origin) : Table :=
  ⟨origin, []⟩

def toValue (t : Table) : Value :=
  .table t.origin t.entries

def get? (t : Table) (key : String) : Option Value :=
  t.entries.lookup key

/-- Set a key, whether or not it is there. -/
def set (t : Table) (key : String) (value : Value) : Table :=
  { t with entries := (key, value) :: t.entries.filter (·.1 != key) }

/-- Add a key that is not there yet. -/
def add? (t : Table) (key : String) (value : Value) : Option Table :=
  match t.get? key with
  | some _ => none
  | none => some (t.set key value)

/-- Change the table at the end of a path. Tables on the way are created where they are missing,
and of a list of tables the latest is meant. `origin` is the origin of created tables, `dotted` for
the path of a dotted key and `implied` for the path of a header. -/
def update? (origin : Origin) (f : Table → Option Table) : List String → Table → Option Table
  | [], t => f t
  | key :: path, t =>
      match t.get? key with
      | none => do
          let sub ← update? origin f path (.empty origin)
          return t.set key sub.toValue
      | some (.table o entries) =>
          let extensible : Bool := match o with
            | .braces => false
            | .header => origin != .dotted
            | _ => true
          if extensible then do
            let sub ← update? origin f path ⟨o, entries⟩
            return t.set key sub.toValue
          else none
      | some (.tables ((o, entries) :: earlier)) => do
          let sub ← update? origin f path ⟨o, entries⟩
          return t.set key (.tables ((sub.origin, sub.entries) :: earlier))
      | some _ => none

/-- Add a value under a dotted key, given as the path before its last part and that part. All
tables on the path must come from dotted keys. -/
def addDotted? (path : List String) (key : String) (value : Value) (t : Table) : Option Table :=
  let insert (sub : Table) : Option Table :=
    if path.isEmpty || sub.origin == .dotted then sub.add? key value else none
  update? .dotted insert path t

/-- Open the table of a header. A table may be opened once, unless it was only implied so far. -/
def openHeader? (path : List String) (key : String) (t : Table) : Option Table :=
  let insert (sub : Table) : Option Table :=
    match sub.get? key with
    | none => some (sub.set key (.table .header []))
    | some (.table .implied entries) => some (sub.set key (.table .header entries))
    | some _ => none
  update? .implied insert path t

/-- Open a further table in the list of tables of a header with doubled brackets. -/
def openElement? (path : List String) (key : String) (t : Table) : Option Table :=
  let insert (sub : Table) : Option Table :=
    match sub.get? key with
    | none => some (sub.set key (.tables [(.header, [])]))
    | some (.tables items) => some (sub.set key (.tables ((.header, []) :: items)))
    | some _ => none
  update? .implied insert path t

end Table

end Detachment.Toml
