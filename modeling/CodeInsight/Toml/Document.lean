import CodeInsight.Text.Basic

/-!
# TOML documents

A document is a tree of tables. Tables come about in different ways, and how one came about decides
whether it may be extended: a table is opened by a header once, tables between the parts of a header
are implied, dotted keys make tables of their own, and an inline table is complete.

Only what configuration needs is kept: strings, dates as text, and the shape of everything else.
-/

namespace CodeInsight.Toml

inductive Origin where
  | header | implied | dotted | inline
  deriving DecidableEq, Repr

inductive Node where
  | string (value : String)
  /-- A date, a time or both, in the form in which it is written back. -/
  | moment (text : String)
  /-- A number or a Boolean. -/
  | scalar
  | array (items : List Node)
  | table (origin : Origin) (entries : List (String × Node))
  /-- Tables opened by headers in double brackets. -/
  | tables (items : List (List (String × Node)))

abbrev Entries := List (String × Node)

def setEntry (key : String) (value : Node) : Entries → Entries
  | [] => [(key, value)]
  | (k, v) :: rest => if k = key then (k, value) :: rest else (k, v) :: setEntry key value rest

def changeLast? {α : Type} (change : α → Option α) : List α → Option (List α)
  | [] => none
  | [a] => (change a).map fun a => [a]
  | a :: rest => (changeLast? change rest).map (a :: ·)

/-! ## Keys with values -/

def addValue? (key : String) (value : Node) (entries : Entries) : Option Entries :=
  match entries.lookup key with
  | some _ => none
  | none => some (entries ++ [(key, value)])

/-- How a table came about once a dotted key has entered it, if one may. A table that is merely
implied belongs to the dotted key that ends in it. -/
def enteredByDot? (last : Bool) : Origin → Option Origin
  | .dotted => some .dotted
  | .implied => some (if last then .dotted else .implied)
  | _ => none

def addDotted? (value : Node) : List String → String → Entries → Option Entries
  | [], key, entries => addValue? key value entries
  | part :: rest, key, entries =>
    match entries.lookup part with
    | none => do
      let inner ← addDotted? value rest key []
      return entries ++ [(part, .table .dotted inner)]
    | some (.table origin inner) => do
      let origin ← enteredByDot? rest.isEmpty origin
      let inner ← addDotted? value rest key inner
      return setEntry part (.table origin inner) entries
    | some (.tables items) =>
      if rest.isEmpty then none
      else do
        let items ← changeLast? (addDotted? value rest key) items
        return setEntry part (.tables items) entries
    | some _ => none

/-! ## Headers -/

/-- Changes the table that a path of headers leads to. Tables on the way are made if need be. -/
def changeAt? (change : Entries → Option Entries) : List String → Entries → Option Entries
  | [], entries => change entries
  | part :: rest, entries =>
    match entries.lookup part with
    | none => do
      let inner ← changeAt? change rest []
      return entries ++ [(part, .table .implied inner)]
    | some (.table origin inner) =>
      if origin = .inline then none
      else do
        let inner ← changeAt? change rest inner
        return setEntry part (.table origin inner) entries
    | some (.tables items) => do
      let items ← changeLast? (changeAt? change rest) items
      return setEntry part (.tables items) entries
    | some _ => none

/-- Opens a table. One that is merely implied may still be opened. -/
def openTable? (key : String) (entries : Entries) : Option Entries :=
  match entries.lookup key with
  | none => some (entries ++ [(key, .table .header [])])
  | some (.table .implied inner) => some (setEntry key (.table .header inner) entries)
  | some _ => none

def openItem? (key : String) (entries : Entries) : Option Entries :=
  match entries.lookup key with
  | none => some (entries ++ [(key, .tables [[]])])
  | some (.tables items) => some (setEntry key (.tables (items ++ [[]])) entries)
  | some _ => none

/-! ## Statements -/

inductive Line where
  /-- `[path.key]`. -/
  | header (path : List String) (key : String)
  /-- `[[path.key]]`. -/
  | item (path : List String) (key : String)
  /-- `path.key = value`. -/
  | entry (path : List String) (key : String) (value : Node)

/-- A document read so far: its entries, and the table that keys belong to. -/
structure Document where
  entries : Entries
  current : List String

def Document.add? (d : Document) : Line → Option Document
  | .header path key => do
    return ⟨← changeAt? (openTable? key) path d.entries, path ++ [key]⟩
  | .item path key => do
    return ⟨← changeAt? (openItem? key) path d.entries, path ++ [key]⟩
  | .entry path key value => do
    return { d with entries := ← changeAt? (addDotted? value path key) d.current d.entries }

def entriesOf? (lines : List Line) : Option Entries := do
  let d ← lines.foldlM Document.add? ⟨[], []⟩
  return d.entries

end CodeInsight.Toml
