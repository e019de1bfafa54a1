/-
# The catalog of descriptors

A catalog is built by registering descriptors one after the other. Ids are
unique among the primary descriptors and names among all. An alias must name a
primary that is already registered and shares its id.

Key definitions: `CatalogError`, `Catalog`, `Catalog.registering`,
`Catalog.register`, `Catalog.ofDescriptors`, `Catalog.get?`,
`Catalog.primaries`.
-/
import TreeLint.Action
import TreeLint.Catalog.Descriptor
import TreeLint.Text.Quoted

namespace TreeLint

/-- Why a descriptor cannot be registered or found. -/
inductive CatalogError where
  | missing (id : String)
  | invalidId (id : String)
  | duplicateId (id existing name : String)
  | duplicateName (name : String)
  | unknownAliasTarget (name target : String)
  | aliasIdMismatch (name id target targetId : String)
deriving DecidableEq, Repr

/-- The text of an error. -/
def CatalogError.message : CatalogError → String
  | .missing id => s!"no descriptor registered for id {id}"
  | .invalidId id =>
    "invalid descriptor id " ++ Quoted.quote id ++ " (expected LC followed by four digits)"
  | .duplicateId id existing name =>
    s!"descriptor id {id} is already used by {existing}; declare {name} as an alias to share it"
  | .duplicateName name => s!"descriptor name {name} is registered twice"
  | .unknownAliasTarget name target => s!"descriptor {name} aliases unknown primary {target}"
  | .aliasIdMismatch name id target targetId =>
    s!"descriptor {name} ({id}) aliases {target} which has id {targetId}"

/-- Registered descriptors, with the position of each primary by id and of each descriptor by
name. -/
structure Catalog where
  descriptors : List Descriptor := []
  byId : List (String × Nat) := []
  byName : List (String × Nat) := []
deriving DecidableEq, Repr

namespace Catalog

/-- The catalog without descriptors. -/
def empty : Catalog := {}

/-- The primary descriptor of an id. -/
def get? (c : Catalog) (id : String) : Option Descriptor :=
  (c.byId.lookup id).bind (c.descriptors[·]?)

/-- The descriptor of a name; aliases are found only here. -/
def named? (c : Catalog) (name : String) : Option Descriptor :=
  (c.byName.lookup name).bind (c.descriptors[·]?)

/-- The primary descriptor of an id, which must be registered. -/
def lookup (c : Catalog) (id : String) : Except CatalogError Descriptor :=
  match c.get? id with
  | some d => .ok d
  | none => .error (.missing id)

/-- Whether an id has a primary descriptor. -/
def contains (c : Catalog) (id : String) : Bool := (c.byId.lookup id).isSome

/-- The primary descriptors, in order. -/
def primaries (c : Catalog) : List Descriptor := c.descriptors.filter (!·.isAlias)

/-- The aliases of an id, in order. -/
def aliasesOf (c : Catalog) (id : String) : List Descriptor :=
  c.descriptors.filter fun d => d.isAlias && d.id == id

/-- Registers a descriptor: the id, the name and the alias are looked at first, then the tables and
the list are written. -/
def registering (d : Descriptor) : Action CatalogError Catalog Unit := do
  if !Descriptor.isValidId d.id then
    throw (.invalidId d.id)
  if ((← get).byName.lookup d.name).isSome then
    throw (.duplicateName d.name)
  match d.aliasOf with
  | some target =>
    match ((← get).named? target).filter (!·.isAlias) with
    | none => throw (.unknownAliasTarget d.name target)
    | some primary =>
      if primary.id ≠ d.id then
        throw (.aliasIdMismatch d.name d.id target primary.id)
  | none =>
    if let some existing := (← get).get? d.id then
      throw (.duplicateId d.id existing.name d.name)
  let index := (← get).descriptors.length
  if !d.isAlias then
    modify fun c => { c with byId := c.byId ++ [(d.id, index)] }
  modify fun c => { c with byName := c.byName ++ [(d.name, index)] }
  modify fun c => { c with descriptors := c.descriptors ++ [d] }

/-- The catalog with one more descriptor. -/
def register (c : Catalog) (d : Descriptor) : Except CatalogError Catalog :=
  (registering d).result c

/-- Registers descriptors in order, up to the first error. -/
def registerAll (c : Catalog) : List Descriptor → Except CatalogError Catalog
  | [] => .ok c
  | d :: ds =>
    match c.register d with
    | .ok c => c.registerAll ds
    | .error e => .error e

/-- The catalog of a list of descriptors. -/
def ofDescriptors (ds : List Descriptor) : Except CatalogError Catalog := empty.registerAll ds

end Catalog
end TreeLint
