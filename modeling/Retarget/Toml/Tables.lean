import Retarget.Toml.Basic

/-!
How the tables of a document come to be. A header opens a table once, and makes those on the way to
it as needed; a dotted key makes tables too, which no header may open again; a value is set once.
-/
namespace Retarget.Toml

inductive TableOrigin
  /-- It has its own header. -/
  | header
  /-- It is on the way to a table with a header. -/
  | onTheWay
  /-- It is on the way to a value. -/
  | dotted
  deriving DecidableEq

inductive Draft
  | value (value : Toml)
  | table (origin : TableOrigin) (entries : List (Text × Draft))
  /-- An array of tables, the latest first. -/
  | tables (latest : List (Text × Draft)) (earlier : List (List (Text × Draft)))

abbrev Drafts := List (Text × Draft)

namespace Drafts

def put (drafts : Drafts) (key : Text) (draft : Draft) : Drafts :=
  if drafts.any (·.1 = key) then drafts.map fun e => if e.1 = key then (key, draft) else e
  else drafts ++ [(key, draft)]

/-- The table at the end of a way changed. Tables that are missing on the way are made; a value on
the way blocks it; of an array of tables the latest is taken. -/
def along (change : Drafts → Option Drafts) : List Text → Drafts → Option Drafts
  | [], drafts => change drafts
  | key :: rest, drafts =>
    match drafts.lookup key with
    | none => (along change rest []).map fun inner => drafts.put key (.table .onTheWay inner)
    | some (.table origin inner) =>
      (along change rest inner).map fun inner => drafts.put key (.table origin inner)
    | some (.tables latest earlier) =>
      (along change rest latest).map fun latest => drafts.put key (.tables latest earlier)
    | some (.value _) => none

def openTable (key : Text) (drafts : Drafts) : Option Drafts :=
  match drafts.lookup key with
  | none => some (drafts.put key (.table .header []))
  | some (.table .onTheWay inner) => some (drafts.put key (.table .header inner))
  | _ => none

def appendTable (key : Text) (drafts : Drafts) : Option Drafts :=
  match drafts.lookup key with
  | none => some (drafts.put key (.tables [] []))
  | some (.tables latest earlier) => some (drafts.put key (.tables [] (latest :: earlier)))
  | _ => none

/-- A value set under a dotted key. Tables that have a header are closed to it. -/
def assign (value : Toml) : List Text → Drafts → Option Drafts
  | [], _ => none
  | [key], drafts =>
    match drafts.lookup key with
    | none => some (drafts.put key (.value value))
    | some _ => none
  | key :: rest, drafts =>
    match drafts.lookup key with
    | none => (assign value rest []).map fun inner => drafts.put key (.table .dotted inner)
    | some (.table .header _) => none
    | some (.table origin inner) =>
      (assign value rest inner).map fun inner => drafts.put key (.table origin inner)
    | _ => none

end Drafts

mutual

def Draft.toToml : Draft → Toml
  | .value value => value
  | .table _ entries => .table (finishEntries entries)
  | .tables latest earlier =>
    .arr ((finishTables earlier).reverse ++ [.table (finishEntries latest)])

def finishEntries : List (Text × Draft) → List (Text × Toml)
  | [] => []
  | (key, draft) :: rest => (key, draft.toToml) :: finishEntries rest

def finishTables : List (List (Text × Draft)) → List Toml
  | [] => []
  | entries :: rest => .table (finishEntries entries) :: finishTables rest

end

end Retarget.Toml
