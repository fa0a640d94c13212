-- SUMMARY: Tables of TOML documents while they are read: which of them may be opened and extended.
import DataBound.Value

/-! # Tables

A key has one value. A table is opened by one header, those on the way to it come about by the way, and dotted keys
make tables that no header opens. Values are closed: nothing is added to an inline table or an array. An array of
tables grows by one table for each of its headers, and only the last one is extended.

`Item` remembers how a table came about; the result is a value. -/

namespace DataBound.Toml

/-- How a table came about. -/
inductive Origin where
  /-- On the way to the table of a header. -/
  | passed
  | header
  | dotted
  deriving DecidableEq

/-- What stands under a key: a value, a table, or an array of tables, of which the last is not closed yet. -/
inductive Item where
  | value (v : Value)
  | table (origin : Origin) (entries : List (String × Item))
  | tables (closed : List Value) (last : List (String × Item))
  deriving Inhabited

/-- The items of a table in order. -/
abbrev Entries := List (String × Item)

mutual

def Item.toValue : Item → Value
  | .value v => v
  | .table _ entries => .object (fieldsOf entries)
  | .tables closed last => .array (closed ++ [.object (fieldsOf last)])

def fieldsOf : List (String × Item) → List (String × Value)
  | [] => []
  | (key, item) :: rest => (key, item.toValue) :: fieldsOf rest

end

/-- The entries with the item under a key changed; the change is told whether there is one, and can refuse. -/
def change (key : String) (f : Option Item → Option Item) : Entries → Option Entries
  | [] => (f none).map fun item => [(key, item)]
  | (k, item) :: rest =>
    if k = key then (f (some item)).map fun item => (k, item) :: rest
    else (change key f rest).map fun rest => (k, item) :: rest

/-- A value put under a dotted key of a table. The table in which it comes to stand takes it if it `fits` there:
    it is the table that is open or one that dotted keys made. -/
def put (v : Value) : List String → (fits : Bool) → Entries → Option Entries
  | [], _, _ => none
  | [key], fits, entries =>
    change key (fun item => if fits && item.isNone then some (.value v) else none) entries
  | key :: rest, _, entries =>
    change key
      (fun
        | none => (put v rest true []).map (.table .dotted)
        | some (.table .dotted inner) => (put v rest true inner).map (.table .dotted)
        | some (.table .passed inner) => (put v rest false inner).map (.table .passed)
        | some (.tables closed last) => (put v rest false last).map (.tables closed)
        | some (.table .header _) => none
        | some (.value _) => none)
      entries

/-- The entries with the item under the last part of a header changed. The way there leads through tables of any
    kind, and through the last table of an array. -/
def changeAt (f : Option Item → Option Item) : List String → Entries → Option Entries
  | [], _ => none
  | [key], entries => change key f entries
  | key :: rest, entries =>
    change key
      (fun
        | none => (changeAt f rest []).map (.table .passed)
        | some (.table origin inner) => (changeAt f rest inner).map (.table origin)
        | some (.tables closed last) => (changeAt f rest last).map (.tables closed)
        | some (.value _) => none)
      entries

/-- What a header makes of what stands under it: a new table, or one that it opens. -/
def opened : Option Item → Option Item
  | none => some (.table .header [])
  | some (.table .passed inner) => some (.table .header inner)
  | some _ => none

/-- What a header of an array of tables makes of what stands under it: the array with one more table. -/
def extended : Option Item → Option Item
  | none => some (.tables [] [])
  | some (.tables closed last) => some (.tables (closed ++ [.object (fieldsOf last)]) [])
  | some _ => none

/-- A value put under a dotted key of the table that a header opened last, or of the document if none did. -/
def putIn (v : Value) (key : List String) : (header : List String) → Entries → Option Entries
  | [], entries => put v key true entries
  | header, entries =>
    changeAt
      (fun
        | some (.table origin inner) => (put v key true inner).map (.table origin)
        | some (.tables closed last) => (put v key true last).map (.tables closed)
        | _ => none)
      header entries

end DataBound.Toml
