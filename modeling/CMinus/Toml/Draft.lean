import CMinus.Toml.Value

/-!
# Putting tables together

A document does not write its tables down one after the other: headers and
dotted keys can come back to a table that is already there.  When that is
allowed depends on how the table came to be, so a table under construction
remembers it.

* A header *defines* its last table; it may not be defined again.
* A header *implies* the tables on the way to it; each may be defined later.
* A dotted key makes the tables on its way, and only dotted keys of the same
  table may add to them.

An array of tables grows by one table per header.  Only its newest table can
still change; the ones before are finished values.

## Main definitions

* `Item` and `Origin`: what is under construction, and why it is there;
* `descend`: go down a path, making what is missing;
* `assign`, `openTable`, `openElement`: the three things a line can do.
-/

namespace CMinus.Toml

/-- How a table came to be. -/
inductive Origin where
  /-- By a header of its own. -/
  | defined
  /-- By the header of a table inside it. -/
  | implied
  /-- By a dotted key. -/
  | dotted
  deriving DecidableEq

/-- A part of a document under construction. -/
inductive Item where
  /-- A value, which is complete. -/
  | value (v : Value)
  | table (origin : Origin) (entries : List (String × Item))
  /-- An array of tables: the finished ones, and the entries of the newest. -/
  | tables (finished : List Value) (newest : List (String × Item))

/-- The entries of a table under construction. -/
abbrev Entries := List (String × Item)

mutual

/-- The finished value of an item. -/
def Item.toValue : Item → Value
  | .value v => v
  | .table _ entries => .table (Entries.finish entries)
  | .tables finished newest => .array (finished ++ [.table (Entries.finish newest)])

/-- The finished entries of a table. -/
def Entries.finish : Entries → List (String × Value)
  | [] => []
  | (key, item) :: rest => (key, item.toValue) :: Entries.finish rest

end

namespace Entries

/-- Replace the item under a key. -/
def replace (entries : Entries) (key : String) (item : Item) : Entries :=
  entries.map fun (k, old) => if k = key then (k, item) else (k, old)

/-- Go down a path of keys and change the table at its end.  Tables that are
missing are made on the way, with origin `fresh`.  An array of tables stands
for its newest table.  A value cannot be entered, and a dotted key cannot enter
a table that has a header of its own. -/
def descend (fresh : Origin) (change : Origin → Entries → Option Entries) :
    (path : List String) → Origin → Entries → Option Entries
  | [], origin, entries => change origin entries
  | key :: path, _, entries =>
    match entries.lookup key with
    | none => do
      let inner ← descend fresh change path fresh []
      some (entries ++ [(key, .table fresh inner)])
    | some (.value _) => none
    | some (.tables finished newest) => do
      let inner ← descend fresh change path .defined newest
      some (entries.replace key (.tables finished inner))
    | some (.table origin inner) =>
      if fresh = .dotted ∧ origin = .defined then none
      else do
        let inner ← descend fresh change path origin inner
        some (entries.replace key (.table origin inner))

/-- Enter a value under a dotted key: `path` leads to the table and `key` is
the last part.  A table that a path of keys leads to must have been made by
dotted keys. -/
def assign (path : List String) (key : String) (v : Value) (entries : Entries) :
    Option Entries :=
  descend .dotted
    (fun origin entries =>
      if origin = .dotted ↔ path = [] then none
      else if (entries.lookup key).isSome then none
      else some (entries ++ [(key, .value v)]))
    path .defined entries

/-- Open the table of a header `[path.key]`. -/
def openTable (path : List String) (key : String) (root : Entries) : Option Entries :=
  descend .implied
    (fun _ entries =>
      match entries.lookup key with
      | none => some (entries ++ [(key, .table .defined [])])
      | some (.table .implied inner) => some (entries.replace key (.table .defined inner))
      | some _ => none)
    path .defined root

/-- Open a new table in the array of a header `[[path.key]]`. -/
def openElement (path : List String) (key : String) (root : Entries) : Option Entries :=
  descend .implied
    (fun _ entries =>
      match entries.lookup key with
      | none => some (entries ++ [(key, .tables [] [])])
      | some (.tables finished newest) =>
        some (entries.replace key (.tables (finished ++ [.table (finish newest)]) []))
      | some _ => none)
    path .defined root

/-- Enter a value in the table that the last header opened. -/
def assignAt (opened : List String) (path : List String) (key : String) (v : Value)
    (root : Entries) : Option Entries :=
  descend .implied (fun _ entries => assign path key v entries) opened .defined root

end Entries

end CMinus.Toml
