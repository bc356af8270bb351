import HttpEcho.Toml.Quoted

/-!
# Values and tables

A document is a table of values. How a table came into being (`Origin`) decides what may still be
added to it: each table is defined at one place, and what braces enclose is closed. `define` adds a
key and its value, `openTable` and `openElement` begin what a header names.
-/

namespace HttpEcho.Toml

/-- How a table came into being. -/
inductive Origin where
  /-- By a header of its own, or as the whole document. -/
  | header
  /-- By a header of a table inside it. -/
  | implied
  /-- By a key with dots. -/
  | dotted
  /-- In braces. -/
  | inline
  deriving DecidableEq, Repr

/-- A value of a document. -/
inductive Value where
  | string (text : String)
  | integer (n : Int)
  /-- A float, as it is written. -/
  | float (text : String)
  | boolean (b : Bool)
  /-- A date or a time, as it is written. -/
  | moment (text : String)
  | array (items : List Value)
  | table (origin : Origin) (entries : List (String × Value))
  /-- The tables that headers with double brackets define. -/
  | tables (elements : List (List (String × Value)))
  deriving Repr

/-- The keys of a table with their values. -/
abbrev Entries := List (String × Value)

namespace Entries

/-- Give a key a value, in the place of its old one if it has one. -/
def put (key : String) (value : Value) : Entries → Entries
  | [] => [(key, value)]
  | (k, v) :: rest => if k = key then (key, value) :: rest else (k, v) :: put key value rest

/-- Change the table at the end of a path with `f`, which is told how that table came into being.
Tables that are missing on the way are made. The way leads through the last element of an array of
tables and never through what braces enclose; a key with dots does not lead into a table that has a
header. -/
def alter (byDots : Bool) (f : Origin → Entries → Option Entries) :
    List String → Origin → Entries → Option Entries
  | [], origin, entries => f origin entries
  | key :: path, _, entries =>
    match entries.lookup key with
    | none =>
      let origin := if byDots then .dotted else .implied
      (alter byDots f path origin []).map fun inner => put key (.table origin inner) entries
    | some (.table origin inner) =>
      if origin = .inline || (byDots && origin = .header) then none
      else (alter byDots f path origin inner).map fun inner => put key (.table origin inner) entries
    | some (.tables elements) =>
      match elements.getLast? with
      | none => none
      | some last =>
        (alter byDots f path .header last).map fun last =>
          put key (.tables (elements.dropLast ++ [last])) entries
    | some _ => none

/-- Add a key and its value to a table of the given origin. A key is defined once, and with dots it
only extends tables that keys with dots have made. -/
def define (origin : Origin) (key : Key) (value : Value) (entries : Entries) : Option Entries :=
  let add (reached : Origin) (inner : Entries) : Option Entries :=
    if (!key.path.isEmpty && reached ≠ .dotted) || (inner.lookup key.name).isSome then none
    else some (put key.name value inner)
  alter true add key.path origin entries

/-- Begin the table that a header names. -/
def openTable (key : Key) (document : Entries) : Option Entries :=
  let begin (_ : Origin) (inner : Entries) : Option Entries :=
    match inner.lookup key.name with
    | none => some (put key.name (.table .header []) inner)
    | some (.table .implied entries) => some (put key.name (.table .header entries) inner)
    | some _ => none
  alter false begin key.path .header document

/-- Begin an element of the array of tables that a header names. -/
def openElement (key : Key) (document : Entries) : Option Entries :=
  let begin (_ : Origin) (inner : Entries) : Option Entries :=
    match inner.lookup key.name with
    | none => some (put key.name (.tables [[]]) inner)
    | some (.tables elements) => some (put key.name (.tables (elements ++ [[]])) inner)
    | some _ => none
  alter false begin key.path .header document

/-- Add a key and its value to the table that the last header named. -/
def defineIn (table : List String) (key : Key) (value : Value) (document : Entries) :
    Option Entries :=
  alter false (fun _ inner => define .header key value inner) table .header document

/-- The table that keys and values in braces define. -/
def ofPairs (pairs : List (Key × Value)) : Option Entries :=
  pairs.foldlM (fun entries pair => define .inline pair.1 pair.2 entries) []

end Entries

end HttpEcho.Toml
