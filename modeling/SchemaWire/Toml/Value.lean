/-!
Values of TOML documents. Tables remember how they came about, as that decides whether more may be
put into them.
-/
namespace SchemaWire.Toml

/-- How a table came about. -/
inductive Origin where
  /-- By braces; nothing can be added to it. -/
  | inline
  /-- By a header of its own. -/
  | header
  /-- By a header of a table within it. -/
  | implicit
  /-- By a dotted key. -/
  | dotted
deriving DecidableEq, Repr

/-- A value. Numbers, dates and times are not told apart. -/
inductive Value where
  | string (text : String)
  | bool (value : Bool)
  | number
  | array (items : List Value)
  | table (origin : Origin) (entries : List (String × Value))
  /-- Tables under headers in double brackets. -/
  | tables (tables : List (List (String × Value)))
deriving Repr

abbrev Entries := List (String × Value)

def replace (entries : Entries) (key : String) (value : Value) : Entries :=
  entries.map fun entry => if entry.1 = key then (key, value) else entry

/-- Puts a value under a key that is dotted or not. A key is set once; only tables that came about
by dotted keys can be extended by them. -/
def assign? (entries : Entries) (value : Value) : List String → Option Entries
  | [] => none
  | [key] => if (entries.lookup key).isSome then none else some (entries ++ [(key, value)])
  | key :: path =>
      match entries.lookup key with
      | none => (assign? [] value path).map fun inner => entries ++ [(key, .table .dotted inner)]
      | some (.table .dotted inner) =>
          (assign? inner value path).map fun inner => replace entries key (.table .dotted inner)
      | some _ => none

/-- Puts several values under their keys. -/
def assignAll? (entries : Entries) (pairs : List (List String × Value)) : Option Entries :=
  pairs.foldlM (fun entries pair => assign? entries pair.2 pair.1) entries

/-- Opens the table of a header and puts values into it. A table has one header at most, unless it
is one of several tables of the same name. -/
def openTable? (isRepeated : Bool) (pairs : List (List String × Value)) (entries : Entries) :
    List String → Option Entries
  | [] => none
  | [key] =>
      match isRepeated, entries.lookup key with
      | false, none =>
          (assignAll? [] pairs).map fun inner => entries ++ [(key, .table .header inner)]
      | false, some (.table .implicit inner) =>
          (assignAll? inner pairs).map fun inner => replace entries key (.table .header inner)
      | true, none => (assignAll? [] pairs).map fun inner => entries ++ [(key, .tables [inner])]
      | true, some (.tables tables) =>
          (assignAll? [] pairs).map fun inner =>
            replace entries key (.tables (tables ++ [inner]))
      | _, some _ => none
  | key :: path =>
      match entries.lookup key with
      | none =>
          (openTable? isRepeated pairs [] path).map fun inner =>
            entries ++ [(key, .table .implicit inner)]
      | some (.table .inline _) => none
      | some (.table origin inner) =>
          (openTable? isRepeated pairs inner path).map fun inner =>
            replace entries key (.table origin inner)
      | some (.tables tables) =>
          match tables.getLast? with
          | none => none
          | some inner =>
              (openTable? isRepeated pairs inner path).map fun inner =>
                replace entries key (.tables (tables.dropLast ++ [inner]))
      | some _ => none

/-- A header and the values below it. The values before the first header have an empty path. -/
structure Section where
  path : List String
  isRepeated : Bool
  pairs : List (List String × Value)

/-- The table of a whole document. -/
def ofSections? (sections : List Section) : Option Entries :=
  sections.foldlM (fun entries block =>
    if block.path.isEmpty then assignAll? entries block.pairs
    else openTable? block.isRepeated block.pairs entries block.path) []

end SchemaWire.Toml
