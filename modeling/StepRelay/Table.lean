import StepRelay.Cell

/-!
# The table of published values

A table holds the latest published cell of each name and counts publishes. A publish says which
version of the table its step had observed; where it replaces a cell that another step published
after that version it reports a conflict, and the new cell stands all the same.
-/

namespace StepRelay

/-- A published cell and the version of the table that its publish made. -/
structure Published where
  cell : Cell
  publishedAt : LogicalTime

/-- Whether it comes from another step than `step` and from a publish after the version
`observed`. -/
def Published.isUnobserved (published : Published) (step : StepId) (observed : LogicalTime) :
    Bool :=
  published.cell.origin != step && observed < published.publishedAt

/-- A name under which a publish replaced a cell that its step had not observed, and whose it
was. -/
structure Conflict where
  name : String
  previousStep : StepId
  deriving DecidableEq

/-- What a publish reports. -/
structure PublishReport where
  version : LogicalTime
  conflicts : List Conflict
  deriving DecidableEq

/-- The published cells of some names, as inputs, at a version of the table. -/
structure Resolution where
  cells : List Cell
  version : LogicalTime

/-- The values of a resolution by name. -/
def Resolution.values (resolution : Resolution) : OrderedMap Value :=
  Cell.valuesByName resolution.cells

/-- Where the outputs of a publish come from: cells one after the other, and then an end or a
break. -/
inductive Source where
  | ended
  | broken
  | next (cell : Cell) (rest : Source)

/-- Gives the cells of a list, and breaks off when it is asked for the item at `n`. -/
def Source.upTo : List Cell → Nat → Source
  | _, 0 => broken
  | [], _ + 1 => ended
  | cell :: rest, n + 1 => next cell (upTo rest n)

/-- The latest published cell of each name, in the order in which the names were first published. -/
structure Table where
  cells : OrderedMap Published := ∅
  version : LogicalTime := 0

namespace Table

/-- Looks names up, in the order given; a name that is not published is left out. -/
def resolve (table : Table) (names : List String) : Resolution where
  cells := names.filterMap fun name =>
    (table.cells.get? name).map fun published => published.cell.relabel .input
  version := table.version

/-- Puts cells into the table one after the other, all at one version. -/
def land (step : StepId) (observed version : LogicalTime) :
    OrderedMap Published → List Cell → OrderedMap Published × List Conflict
  | landed, [] => (landed, [])
  | landed, cell :: rest =>
    -- a later output of the same publish is compared with this one, not with what it replaced
    let (all, conflicts) :=
      land step observed version (landed.insert cell.name ⟨cell, version⟩) rest
    match landed.get? cell.name with
    | some old =>
      if old.isUnobserved step observed then
        (all, ⟨cell.name, old.cell.origin⟩ :: conflicts)
      else (all, conflicts)
    | none => (all, conflicts)

/-- Publishes the outputs of a step that had observed a version of the table. -/
def publish (table : Table) (step : StepId) (outputs : List Cell) (observed : LogicalTime) :
    Table × PublishReport :=
  let version := table.version + 1
  let (cells, conflicts) := land step observed version table.cells outputs
  ({ cells, version }, { version, conflicts })

/-- Puts in what a source gives, as it comes. The conflicts are lost if the source breaks off. -/
def landFrom (step : StepId) (observed version : LogicalTime) :
    OrderedMap Published → Source → OrderedMap Published × Option (List Conflict)
  | landed, .ended => (landed, some [])
  | landed, .broken => (landed, none)
  | landed, .next cell rest =>
    let (all, conflicts) :=
      landFrom step observed version (landed.insert cell.name ⟨cell, version⟩) rest
    match landed.get? cell.name with
    | some old =>
      if old.isUnobserved step observed then
        (all, conflicts.map (⟨cell.name, old.cell.origin⟩ :: ·))
      else (all, conflicts)
    | none => (all, conflicts)

/-- Publishes what a source gives. There is no report if the source breaks off; the version is
counted before the first output is asked for. -/
def publishFrom (table : Table) (step : StepId) (source : Source) (observed : LogicalTime) :
    Table × Option PublishReport :=
  let version := table.version + 1
  let (cells, conflicts) := landFrom step observed version table.cells source
  ({ cells, version }, conflicts.map fun conflicts => { version, conflicts })

/-- The table that a publish leaves behind whose source breaks off after the given cells. -/
def publishBroken (table : Table) (step : StepId) (come : List Cell) (observed : LogicalTime) :
    Table :=
  (table.publishFrom step (.upTo come come.length) observed).1

/-- The published names, in the order of their first publish. -/
def names (table : Table) : List String := table.cells.keys

/-- The published cell of a name, as it was published. -/
def cell? (table : Table) (name : String) : Option Cell :=
  (table.cells.get? name).map Published.cell

def value? (table : Table) (name : String) : Option Value := (table.cell? name).map Cell.value

end Table

end StepRelay
