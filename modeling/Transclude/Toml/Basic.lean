namespace Transclude

/-- How a table came about: by its own header, by the header of a table below it, by a dotted key,
or written out as a value. -/
inductive TableOrigin where
  | header
  | implied
  | dotted
  | inline
  deriving DecidableEq

/-- Numbers, truth values and times are kept as they are written. -/
inductive Toml where
  | text (value : String)
  | scalar (spelling : String)
  | array (items : List Toml)
  | table (origin : TableOrigin) (entries : List (String × Toml))
  | tables (items : List (List (String × Toml)))

namespace Toml

abbrev Entries := List (String × Toml)

def get? (entries : Entries) (key : String) : Option Toml := entries.lookup key

def set (key : String) (value : Toml) : Entries → Entries
  | [] => [(key, value)]
  | (k, v) :: rest => if k = key then (k, value) :: rest else (k, v) :: set key value rest

/-- Adds a value under a dotted key. The table that gets the value is new or stems from a dotted
key; those on the way to it may also be implied by headers or be the last of an array. -/
def insert : (path : List String) → Toml → Entries → Option Entries
  | [], _, _ => none
  | [key], value, entries =>
    match get? entries key with
    | none => some (entries ++ [(key, value)])
    | some _ => none
  | key :: next :: path, value, entries =>
    match get? entries key with
    | none => (insert (next :: path) value []).map fun sub ↦ set key (.table .dotted sub) entries
    | some (.table .dotted sub) =>
      (insert (next :: path) value sub).map fun sub ↦ set key (.table .dotted sub) entries
    | some (.table .implied sub) =>
      if path.isEmpty then none
      else (insert (next :: path) value sub).map fun sub ↦ set key (.table .implied sub) entries
    | some (.tables items) =>
      if path.isEmpty then none
      else
        (insert (next :: path) value (items.getLastD [])).map fun sub ↦
          set key (.tables (items.dropLast ++ [sub])) entries
    | some _ => none

/-- Applies a change to the table that a header names, making the tables on the way. -/
def descend (last : String → Entries → Option Entries) : (path : List String) → Entries →
    Option Entries
  | [], _ => none
  | [key], entries => last key entries
  | key :: path, entries =>
    match get? entries key with
    | none => (descend last path []).map fun sub ↦ set key (.table .implied sub) entries
    | some (.table .inline _) => none
    | some (.table origin sub) =>
      (descend last path sub).map fun sub ↦ set key (.table origin sub) entries
    | some (.tables items) =>
      (descend last path (items.getLastD [])).map fun sub ↦
        set key (.tables (items.dropLast ++ [sub])) entries
    | some _ => none

def openTable (path : List String) (root : Entries) : Option Entries :=
  descend (fun key entries ↦
    match get? entries key with
    | none => some (entries ++ [(key, .table .header [])])
    | some (.table .implied sub) => some (set key (.table .header sub) entries)
    | some _ => none) path root

def openItem (path : List String) (root : Entries) : Option Entries :=
  descend (fun key entries ↦
    match get? entries key with
    | none => some (entries ++ [(key, .tables [[]])])
    | some (.tables items) => some (set key (.tables (items ++ [[]])) entries)
    | some _ => none) path root

def insertUnder (header path : List String) (value : Toml) (root : Entries) : Option Entries :=
  if header.isEmpty then insert path value root
  else
    descend (fun key entries ↦
      match get? entries key with
      | some (.table origin sub) =>
        (insert path value sub).map fun sub ↦ set key (.table origin sub) entries
      | some (.tables items) =>
        (insert path value (items.getLastD [])).map fun sub ↦
          set key (.tables (items.dropLast ++ [sub])) entries
      | _ => none) header root

end Toml

end Transclude
