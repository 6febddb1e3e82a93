/-!
# TOML tables

A TOML document is a table: keys with values, which may be tables again or lists of tables. A path of
keys leads through tables and through the last of each list of tables. A table that is written on one
line between braces is closed: nothing can be added to it later.
-/

namespace Shading.Toml

mutual

/-- A value of a document. A float is kept as it is written. -/
inductive Node where
  | string (s : String)
  | integer (n : Int)
  | float (text : String)
  | boolean (b : Bool)
  | array (items : List Node)
  | table (t : Table)
  | tables (ts : List Table)

/-- Keys with values, each key once, and whether the table is closed. -/
inductive Table where
  | mk (entries : List (String × Node)) (closed : Bool)

end

abbrev Path := List String

namespace Table

def entries : Table → List (String × Node)
  | mk es _ => es

def closed : Table → Bool
  | mk _ c => c

def empty : Table := mk [] false

instance : Inhabited Table := ⟨empty⟩
instance : Inhabited Node := ⟨.boolean false⟩

def ofEntries (es : List (String × Node)) : Table := mk es false

def close : Table → Table
  | mk es _ => mk es true

def find? (t : Table) (key : String) : Option Node := t.entries.lookup key

/-- The table with a value for a key, in place of any it had. -/
def insert (t : Table) (key : String) (n : Node) : Table :=
  mk ((t.entries.filter fun e => e.1 != key) ++ [(key, n)]) t.closed

/-- The value at a path of one or more keys. -/
def get? (t : Table) : Path → Option Node
  | [] => none
  | [key] => t.find? key
  | key :: path => match t.find? key with
    | some (.table s) => s.get? path
    | some (.tables ts) => ts.getLast?.bind fun s => s.get? path
    | _ => none

/-- Changes the table at a path. Tables that are missing on the way are made, closed if the table
around them is; a value that is no table is in the way. -/
def update? (f : Table → Option Table) (t : Table) : Path → Option Table
  | [] => f t
  | key :: path => match t.find? key with
    | none => ((mk [] t.closed).update? f path).map fun s => t.insert key (.table s)
    | some (.table s) => (s.update? f path).map fun s' => t.insert key (.table s')
    | some (.tables ts) => match ts.getLast? with
      | none => none
      | some s => (s.update? f path).map fun s' => t.insert key (.tables (ts.dropLast ++ [s']))
    | some _ => none

/-- Puts a value at a path. A value that is no table is passed over on the way: its key counts for
nothing. -/
def put (n : Node) (t : Table) : Path → Table
  | [] => t
  | [key] => t.insert key n
  | key :: path => match t.find? key with
    | none => t.insert key (.table (empty.put n path))
    | some (.table s) => t.insert key (.table (s.put n path))
    | some (.tables ts) => match ts.getLast? with
      | none => t.insert key (.tables [empty.put n path])
      | some s => t.insert key (.tables (ts.dropLast ++ [s.put n path]))
    | some _ => t.put n path

end Table

namespace Node

/-- The items of an array; if there are some and all are tables, they form a list of tables. -/
def ofItems (items : List Node) : Node :=
  let asTable : Node → Option Table
    | table t => some t
    | _ => none
  match items, items.mapM asTable with
  | _ :: _, some ts => tables ts
  | _, _ => array items

end Node

end Shading.Toml
