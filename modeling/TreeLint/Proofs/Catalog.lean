/-
# Catalogs that registration can build

A registration makes all its checks before it writes, so it writes all or nothing
(`Catalog.runFrom_registering`). A catalog is only ever built by registering
descriptors. In such a catalog the positions by id are those of the primary
descriptors, and no two primaries share an id; so looking an id up finds the one
primary that has it.

Key definitions: `Catalog.registrationError?`, `Catalog.Built`, `Catalog.primary?`,
`Catalog.Indexed`.
Key theorems: `Catalog.runFrom_registering`, `Catalog.Built.indexed`, `Catalog.Indexed.get?_eq`,
`Catalog.Indexed.contains_eq`.
-/
import TreeLint.Catalog.Basic

namespace TreeLint
namespace Catalog

/-! ### One registration -/

/-- Why a descriptor's id or alias does not fit the catalog. -/
def sharingError? (c : Catalog) (d : Descriptor) : Option CatalogError :=
  match d.aliasOf with
  | some target =>
    match (c.named? target).filter (!·.isAlias) with
    | none => some (.unknownAliasTarget d.name target)
    | some primary =>
      if primary.id = d.id then none
      else some (.aliasIdMismatch d.name d.id target primary.id)
  | none => (c.get? d.id).map fun existing => .duplicateId d.id existing.name d.name

/-- Why a descriptor cannot be registered. -/
def registrationError? (c : Catalog) (d : Descriptor) : Option CatalogError :=
  if !Descriptor.isValidId d.id then some (.invalidId d.id)
  else if (c.byName.lookup d.name).isSome then some (.duplicateName d.name)
  else c.sharingError? d

/-- The catalog with a descriptor written to its tables and its list. -/
def written (c : Catalog) (d : Descriptor) : Catalog where
  descriptors := c.descriptors ++ [d]
  byId := if d.isAlias then c.byId else c.byId ++ [(d.id, c.descriptors.length)]
  byName := c.byName ++ [(d.name, c.descriptors.length)]

/-- **A registration writes all or nothing**: it answers the first thing that is wrong and has then
written nothing, or the descriptor stands in the tables and in the list. -/
theorem runFrom_registering (c : Catalog) (d : Descriptor) :
    (registering d).runFrom c = match c.registrationError? d with
      | some e => (.error e, c)
      | none => (.ok (), c.written d) := by
  unfold registering registrationError?
  cases Descriptor.isValidId d.id with
  | false => rfl
  | true =>
    simp only [Bool.not_true, Bool.false_eq_true, ↓reduceIte, Action.runFrom_get_bind]
    cases (c.byName.lookup d.name).isSome with
    | true => rfl
    | false =>
      simp only [Bool.false_eq_true, ↓reduceIte, sharingError?, written]
      cases halias : d.aliasOf with
      | none =>
        simp only [Action.runFrom_get_bind]
        cases c.get? d.id with
        | none => simp [Descriptor.isAlias, halias]
        | some existing => rfl
      | some target =>
        simp only [Action.runFrom_get_bind]
        cases (c.named? target).filter (!·.isAlias) with
        | none => rfl
        | some primary =>
          by_cases hid : primary.id = d.id
          · simp [hid, Descriptor.isAlias, halias]
          · simp [hid]

theorem register_eq (c : Catalog) (d : Descriptor) :
    c.register d = match c.registrationError? d with
      | some e => .error e
      | none => .ok (c.written d) := by
  unfold register Action.result
  rw [runFrom_registering]
  cases c.registrationError? d <;> rfl

/-! ### Built catalogs -/

/-- The catalogs that registration builds from the empty one; a registration that fails leaves the
catalog as it is. -/
inductive Built : Catalog → Prop
  | empty : Built .empty
  | register {c c' : Catalog} {d : Descriptor} : Built c → c.register d = .ok c' → Built c'

/-- The first primary descriptor that has an id. -/
def primary? (c : Catalog) (id : String) : Option Descriptor := c.primaries.find? (·.id == id)

theorem mem_primaries_of_primary? {c : Catalog} {id : String} {p : Descriptor}
    (h : c.primary? id = some p) : p ∈ c.primaries ∧ p.id = id :=
  ⟨List.mem_of_find?_eq_some h, by simpa using List.find?_some h⟩

/-- The ids of the primary descriptors of a list, with their positions; the first descriptor has
position `start`. -/
def idPositions (start : Nat) (ds : List Descriptor) : List (String × Nat) :=
  (ds.zipIdx start).filterMap fun (d, i) => if d.isAlias then none else some (d.id, i)

/-- The positions by id are those of the primaries, which have different ids. -/
structure Indexed (c : Catalog) : Prop where
  byId_eq : c.byId = idPositions 0 c.descriptors
  nodup_ids : (c.primaries.map (·.id)).Nodup

/-- A position found by id is that of the first primary that has the id. -/
theorem lookup_idPositions (id : String) : ∀ before ds : List Descriptor,
    ((idPositions before.length ds).lookup id).bind ((before ++ ds)[·]?) =
        (ds.filter (!·.isAlias)).find? (·.id == id) ∧
      ((idPositions before.length ds).lookup id).isSome =
        ((ds.filter (!·.isAlias)).find? (·.id == id)).isSome
  | _, [] => ⟨rfl, rfl⟩
  | before, d :: ds => by
    have ih := lookup_idPositions id (before ++ [d]) ds
    simp only [List.length_append, List.length_singleton, List.append_assoc,
      List.singleton_append] at ih
    cases halias : d.isAlias with
    | true =>
      have hskip : idPositions before.length (d :: ds) = idPositions (before.length + 1) ds := by
        simp [idPositions, halias]
      rw [hskip, List.filter_cons_of_neg (by simp [halias])]
      exact ih
    | false =>
      have hfirst : idPositions before.length (d :: ds) =
          (d.id, before.length) :: idPositions (before.length + 1) ds := by
        simp [idPositions, halias]
      rw [hfirst, List.filter_cons_of_pos (by simp [halias]), List.lookup_cons, List.find?_cons]
      by_cases hid : d.id = id
      · simp [hid]
      · have hid' : (id == d.id) = false := by simpa using Ne.symm hid
        have hid'' : (d.id == id) = false := by simpa using hid
        rw [hid', hid'']
        exact ih

namespace Indexed

variable {c : Catalog}

/-- Looking an id up finds the primary that has it. -/
theorem get?_eq (h : c.Indexed) (id : String) : c.get? id = c.primary? id := by
  have := (lookup_idPositions id [] c.descriptors).1
  rw [get?, h.byId_eq]
  exact this

theorem contains_eq (h : c.Indexed) (id : String) : c.contains id = (c.primary? id).isSome := by
  have := (lookup_idPositions id [] c.descriptors).2
  rw [contains, h.byId_eq]
  exact this

end Indexed

/-- What a successful registration did: the id was free if the descriptor is no alias, and the
descriptor is listed last. -/
theorem register_eq_ok {c c' : Catalog} {d : Descriptor} (h : c.register d = .ok c') :
    (d.isAlias = false → c.get? d.id = none) ∧
      c'.descriptors = c.descriptors ++ [d] ∧
      c'.byId = if d.isAlias then c.byId else c.byId ++ [(d.id, c.descriptors.length)] := by
  rw [register_eq] at h
  split at h
  · cases h
  · rename_i hnone
    cases h
    refine ⟨fun halias => ?_, rfl, rfl⟩
    have haliasOf : d.aliasOf = none := by simpa [Descriptor.isAlias] using halias
    unfold registrationError? at hnone
    split at hnone
    · cases hnone
    · split at hnone
      · cases hnone
      · simpa [sharingError?, haliasOf] using hnone

theorem idPositions_concat (ds : List Descriptor) (d : Descriptor) :
    idPositions 0 (ds ++ [d]) =
      if d.isAlias then idPositions 0 ds else idPositions 0 ds ++ [(d.id, ds.length)] := by
  cases h : d.isAlias <;> simp [idPositions, List.zipIdx_append, h]

theorem primaries_concat {c c' : Catalog} {d : Descriptor}
    (h : c'.descriptors = c.descriptors ++ [d]) :
    c'.primaries = if d.isAlias then c.primaries else c.primaries ++ [d] := by
  cases halias : d.isAlias <;> simp [primaries, h, halias]

/-- Registration keeps the positions and the ids in order. -/
theorem Indexed.register {c c' : Catalog} {d : Descriptor} (hc : c.Indexed)
    (h : c.register d = .ok c') : c'.Indexed := by
  obtain ⟨hfree, hds, hbyId⟩ := register_eq_ok h
  constructor
  · rw [hbyId, hds, idPositions_concat, hc.byId_eq]
  · rw [primaries_concat hds]
    cases halias : d.isAlias with
    | true => exact hc.nodup_ids
    | false =>
      have hnew : ∀ p ∈ c.primaries, p.id ≠ d.id := by
        have hnone := hfree halias
        rw [hc.get?_eq, primary?, List.find?_eq_none] at hnone
        intro p hp
        simpa using hnone p hp
      simp only [Bool.false_eq_true, ↓reduceIte, List.map_append, List.map_singleton]
      refine List.nodup_append.mpr ⟨hc.nodup_ids, List.pairwise_singleton _ _, ?_⟩
      intro id hid id' hid'
      obtain ⟨p, hp, rfl⟩ := List.mem_map.mp hid
      rw [List.mem_singleton.mp hid']
      exact hnew p hp

theorem Built.registerAll {c c' : Catalog} {ds : List Descriptor} (hc : c.Built)
    (h : c.registerAll ds = .ok c') : c'.Built := by
  induction ds generalizing c with
  | nil =>
    cases h
    exact hc
  | cons d ds ih =>
    unfold Catalog.registerAll at h
    split at h
    · rename_i c₁ hreg
      exact ih (hc.register hreg) h
    · cases h

/-- A catalog made from a list of descriptors is built by registration. -/
theorem Built.ofDescriptors {c : Catalog} {ds : List Descriptor}
    (h : Catalog.ofDescriptors ds = .ok c) : c.Built :=
  Built.empty.registerAll h

/-- **Built catalogs are indexed by their primaries.** -/
theorem Built.indexed {c : Catalog} (h : c.Built) : c.Indexed := by
  induction h with
  | empty => exact ⟨rfl, List.nodup_nil⟩
  | register _ hreg ih => exact ih.register hreg

end Catalog
end TreeLint
