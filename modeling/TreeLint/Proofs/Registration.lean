/-
# A catalog stays in step with itself

A catalog keeps its descriptors in a list and, beside it, two tables of
positions: of the primaries by id and of all descriptors by name. Whatever is
handed to it for registration, and however much of that it refuses, the tables
and the list say the same: a table gives for each key the position of the one
descriptor that has it (`Locates`). What follows is that no two descriptors share
a name and no two primaries an id.

A descriptor is admitted exactly when it fits (`Admits`); then it is listed last,
and otherwise the call leaves nothing behind, though it works on the catalog in
place (`attempt_of_error`). So an alias always stands behind the primary it names.

Key definitions: `Descriptor.IsId`, `Catalog.Locates`, `Catalog.Coherent`,
`Catalog.Admits`, `Catalog.attempt`, `Catalog.attempts`.
Key theorems: `Catalog.Locates.concat`, `Catalog.Coherent.register_eq_ok_iff`,
`Catalog.Built.coherent`, `Catalog.attempt_of_error`, `Catalog.attempts_coherent`.
-/
import Mathlib.Data.List.Basic
import TreeLint.Catalog.Builtin
import TreeLint.Proofs.Catalog

namespace TreeLint

namespace Descriptor

/-- The text is an id: `LC` and four decimal digits. -/
def IsId (s : String) : Prop :=
  ∃ digits : List Char, digits.length = 4 ∧ (∀ c ∈ digits, '0' ≤ c ∧ c ≤ '9') ∧
    s.toList = 'L' :: 'C' :: digits

theorem isValidId_eq_true_iff (s : String) : isValidId s = true ↔ IsId s := by
  unfold isValidId IsId
  constructor
  · intro h
    split at h
    · rename_i w x y z heq
      refine ⟨[w, x, y, z], rfl, fun c hc => ?_, heq⟩
      have hdigit := List.all_eq_true.mp h c hc
      simpa [CharClass.isAsciiDigit] using hdigit
    · cases h
  · rintro ⟨digits, hlength, hdigits, heq⟩
    obtain ⟨w, x, y, z, rfl⟩ := List.length_eq_four.mp hlength
    rw [heq]
    simpa [CharClass.isAsciiDigit] using hdigits

/-- The id by which a descriptor is found: an alias is not found by its id. -/
def primaryId? (d : Descriptor) : Option String := if d.isAlias then none else some d.id

theorem primaryId?_eq_some_iff {d : Descriptor} {id : String} :
    d.primaryId? = some id ↔ d.isAlias = false ∧ d.id = id := by
  unfold primaryId?
  cases d.isAlias <;> simp

end Descriptor

namespace Catalog

/-! ### Tables of positions -/

/-- The table gives, for each key, the position of the descriptor that has it. -/
def Locates (key? : Descriptor → Option String) (table : List (String × Nat))
    (ds : List Descriptor) : Prop :=
  ∀ k i, table.lookup k = some i ↔ ∃ d, ds[i]? = some d ∧ key? d = some k

namespace Locates

variable {key? : Descriptor → Option String} {table : List (String × Nat)} {ds : List Descriptor}

/-- A key is not in the table exactly when no descriptor has it. -/
theorem lookup_eq_none_iff (h : Locates key? table ds) (k : String) :
    table.lookup k = none ↔ ∀ d ∈ ds, key? d ≠ some k := by
  rw [Option.eq_none_iff_forall_ne_some]
  constructor
  · intro hnone d hd hk
    obtain ⟨i, hi⟩ := List.mem_iff_getElem?.mp hd
    exact hnone i ((h k i).mpr ⟨d, hi, hk⟩)
  · intro hall i hi
    obtain ⟨d, hd, hk⟩ := (h k i).mp hi
    exact hall d (List.mem_of_getElem? hd) hk

/-- The descriptor at the position of a key is the one that has it. -/
theorem bind_lookup_eq_some_iff (h : Locates key? table ds) (k : String) (d : Descriptor) :
    (table.lookup k).bind (ds[·]?) = some d ↔ d ∈ ds ∧ key? d = some k := by
  rw [Option.bind_eq_some_iff]
  constructor
  · rintro ⟨i, hi, hd⟩
    obtain ⟨e, he, hk⟩ := (h k i).mp hi
    cases hd.symm.trans he
    exact ⟨List.mem_of_getElem? hd, hk⟩
  · rintro ⟨hmem, hk⟩
    obtain ⟨i, hi⟩ := List.mem_iff_getElem?.mp hmem
    exact ⟨i, (h k i).mpr ⟨d, hi, hk⟩, hi⟩

/-- No two descriptors have the same key: it would have two positions. -/
theorem nodup (h : Locates key? table ds) : (ds.filterMap key?).Nodup := by
  rw [List.Nodup, List.pairwise_filterMap, List.pairwise_iff_getElem]
  intro i j hi hj hlt k hk k' hk' heq
  subst heq
  have hposi := (h k i).mpr ⟨ds[i], List.getElem?_eq_getElem hi, hk⟩
  have hposj := (h k j).mpr ⟨ds[j], List.getElem?_eq_getElem hj, hk'⟩
  rw [hposi, Option.some.injEq] at hposj
  omega

/-- **One more descriptor.** If nothing has its key yet, the table goes on by that key and the
position at the end; without a key it stays as it is. -/
theorem concat (h : Locates key? table ds) {d : Descriptor}
    (hnew : ∀ k, key? d = some k → ∀ e ∈ ds, key? e ≠ some k) :
    Locates key? (table ++ (key? d).toList.map (·, ds.length)) (ds ++ [d]) := by
  intro k i
  have hend : ((key? d).toList.map (·, ds.length)).lookup k = some i ↔
      key? d = some k ∧ i = ds.length := by
    cases hd : key? d with
    | none => simp
    | some k' =>
      by_cases hk : k = k'
      · simp [hk, eq_comm]
      · have hk' : (k == k') = false := by simpa using hk
        simp [List.lookup_cons, hk', Ne.symm hk]
  rw [List.lookup_append, Option.or_eq_some_iff, hend, h k i, h.lookup_eq_none_iff k]
  constructor
  · rintro (⟨e, he, hk⟩ | ⟨-, hk, rfl⟩)
    · exact ⟨e, by rw [List.getElem?_append_left (List.getElem?_eq_some_iff.mp he).1, he], hk⟩
    · exact ⟨d, List.getElem?_concat_length, hk⟩
  · rintro ⟨e, he, hk⟩
    rcases Nat.lt_or_ge i ds.length with hi | hi
    · rw [List.getElem?_append_left hi] at he
      exact Or.inl ⟨e, he, hk⟩
    · have hlen := (List.getElem?_eq_some_iff.mp he).1
      rw [List.length_append, List.length_singleton] at hlen
      obtain rfl : i = ds.length := by omega
      rw [List.getElem?_concat_length, Option.some.injEq] at he
      subst he
      exact Or.inr ⟨hnew k hk, hk, rfl⟩

end Locates

/-! ### The invariant -/

/-- The descriptors of a catalog have proper ids, each alias stands behind the primary it names and
has its id, and the tables give the positions of the primaries by id and of all descriptors by
name. -/
structure Coherent (c : Catalog) : Prop where
  isId : ∀ d ∈ c.descriptors, Descriptor.IsId d.id
  alias_follows : ∀ (i : Nat) (d : Descriptor) (target : String), c.descriptors[i]? = some d →
    d.aliasOf = some target → ∃ (j : Nat) (p : Descriptor), j < i ∧ c.descriptors[j]? = some p ∧
      p.isAlias = false ∧ p.name = target ∧ p.id = d.id
  byId_locates : Locates Descriptor.primaryId? c.byId c.descriptors
  byName_locates : Locates (fun d => some d.name) c.byName c.descriptors

/-- The descriptor fits the catalog: it has a proper id and a new name; as an alias it names a
primary of its id, and as a primary it has a new id. -/
structure Admits (c : Catalog) (d : Descriptor) : Prop where
  isId : Descriptor.IsId d.id
  name_new : ∀ e ∈ c.descriptors, e.name ≠ d.name
  target_known : ∀ target, d.aliasOf = some target →
    ∃ p ∈ c.primaries, p.name = target ∧ p.id = d.id
  id_new : d.aliasOf = none → ∀ p ∈ c.primaries, p.id ≠ d.id

/-- The catalog with one more descriptor at its end. -/
def extended (c : Catalog) (d : Descriptor) : Catalog where
  descriptors := c.descriptors ++ [d]
  byId := c.byId ++ d.primaryId?.toList.map (·, c.descriptors.length)
  byName := c.byName ++ [(d.name, c.descriptors.length)]

theorem written_eq_extended (c : Catalog) (d : Descriptor) : c.written d = c.extended d := by
  have hbyId : (if d.isAlias then c.byId else c.byId ++ [(d.id, c.descriptors.length)]) =
      c.byId ++ d.primaryId?.toList.map (·, c.descriptors.length) := by
    unfold Descriptor.primaryId?
    cases d.isAlias <;> simp
  rw [written, hbyId, extended]

theorem register_eq_ok_iff_registrationError? {c c' : Catalog} {d : Descriptor} :
    c.register d = .ok c' ↔ c.registrationError? d = none ∧ c' = c.extended d := by
  rw [register_eq, ← written_eq_extended]
  cases c.registrationError? d with
  | none =>
    simp only [Except.ok.injEq, true_and]
    exact eq_comm
  | some e => simp

theorem mem_primaries {c : Catalog} {d : Descriptor} :
    d ∈ c.primaries ↔ d ∈ c.descriptors ∧ d.isAlias = false := by
  simp [primaries]

namespace Coherent

variable {c c' : Catalog} {d : Descriptor}

/-- Looking an id up finds the primary that has it, and nothing else. -/
theorem get?_eq_some_iff (h : c.Coherent) (id : String) (d : Descriptor) :
    c.get? id = some d ↔ d ∈ c.primaries ∧ d.id = id := by
  rw [get?, h.byId_locates.bind_lookup_eq_some_iff, Descriptor.primaryId?_eq_some_iff,
    mem_primaries, and_assoc]

theorem get?_eq_none_iff (h : c.Coherent) (id : String) :
    c.get? id = none ↔ ∀ p ∈ c.primaries, p.id ≠ id := by
  simp [Option.eq_none_iff_forall_ne_some, h.get?_eq_some_iff]

/-- Looking a name up finds the descriptor that has it, and nothing else. -/
theorem named?_eq_some_iff (h : c.Coherent) (name : String) (d : Descriptor) :
    c.named? name = some d ↔ d ∈ c.descriptors ∧ d.name = name := by
  rw [named?, h.byName_locates.bind_lookup_eq_some_iff, Option.some.injEq]

theorem lookup_eq_ok_iff (h : c.Coherent) (id : String) (d : Descriptor) :
    c.lookup id = .ok d ↔ d ∈ c.primaries ∧ d.id = id := by
  rw [← h.get?_eq_some_iff, lookup]
  cases c.get? id <;> simp

theorem nodup_names (h : c.Coherent) : (c.descriptors.map (·.name)).Nodup := by
  have hnodup := h.byName_locates.nodup
  rwa [List.filterMap_eq_map'] at hnodup

/-- What is said against the id or the alias of a descriptor: nothing, if it fits. -/
theorem sharingError?_eq_none_iff (h : c.Coherent) :
    c.sharingError? d = none ↔
      (∀ target, d.aliasOf = some target → ∃ p ∈ c.primaries, p.name = target ∧ p.id = d.id) ∧
      (d.aliasOf = none → ∀ p ∈ c.primaries, p.id ≠ d.id) := by
  unfold sharingError?
  cases haliasOf : d.aliasOf with
  | none =>
    have hfree := h.get?_eq_none_iff d.id
    simp [hfree]
  | some target =>
    have hprimary : ∀ p, (c.named? target).filter (!·.isAlias) = some p ↔
        p ∈ c.primaries ∧ p.name = target := by
      intro p
      rw [Option.filter_eq_some_iff, h.named?_eq_some_iff, mem_primaries, Bool.not_eq_true']
      exact and_right_comm
    simp only [Option.some.injEq, forall_eq', reduceCtorEq, false_implies, and_true]
    split
    · rename_i hnone
      simp only [reduceCtorEq, false_iff, not_exists, not_and]
      intro p hp hname
      rw [(hprimary p).mpr ⟨hp, hname⟩] at hnone
      cases hnone
    · rename_i p hp
      simp only [ite_eq_left_iff, reduceCtorEq, imp_false, not_not]
      constructor
      · intro hid
        exact ⟨p, ((hprimary p).mp hp).1, ((hprimary p).mp hp).2, hid⟩
      · rintro ⟨q, hq, hname, hid⟩
        cases hp.symm.trans ((hprimary q).mpr ⟨hq, hname⟩)
        exact hid

theorem registrationError?_eq_none_iff (h : c.Coherent) :
    c.registrationError? d = none ↔ c.Admits d := by
  have hname : (c.byName.lookup d.name).isSome = false ↔ ∀ e ∈ c.descriptors, e.name ≠ d.name := by
    rw [Option.isSome_eq_false_iff, Option.isNone_iff_eq_none, h.byName_locates.lookup_eq_none_iff]
    simp
  unfold registrationError?
  constructor
  · intro hnone
    split at hnone
    · cases hnone
    · rename_i hvalid
      split at hnone
      · cases hnone
      · rename_i hnew
        rw [Bool.not_eq_true', Bool.not_eq_false, Descriptor.isValidId_eq_true_iff] at hvalid
        rw [Bool.not_eq_true] at hnew
        obtain ⟨htarget, hid⟩ := h.sharingError?_eq_none_iff.mp hnone
        exact ⟨hvalid, hname.mp hnew, htarget, hid⟩
  · rintro ⟨hvalid, hnew, htarget, hid⟩
    rw [(Descriptor.isValidId_eq_true_iff d.id).mpr hvalid, hname.mpr hnew]
    exact h.sharingError?_eq_none_iff.mpr ⟨htarget, hid⟩

/-- **A descriptor is registered exactly when it fits**, and then stands at the end. -/
theorem register_eq_ok_iff (h : c.Coherent) :
    c.register d = .ok c' ↔ c.Admits d ∧ c' = c.extended d := by
  rw [register_eq_ok_iff_registrationError?, h.registrationError?_eq_none_iff]

/-- A descriptor that fits keeps the catalog in step. -/
theorem extended (h : c.Coherent) (hd : c.Admits d) : (c.extended d).Coherent where
  isId e he := by
    rcases List.mem_append.mp he with he | he
    · exact h.isId e he
    · rw [List.mem_singleton.mp he]
      exact hd.isId
  alias_follows i e target he htarget := by
    rcases Nat.lt_or_ge i c.descriptors.length with hi | hi
    · rw [Catalog.extended, List.getElem?_append_left hi] at he
      obtain ⟨j, p, hj, hp, hrest⟩ := h.alias_follows i e target he htarget
      refine ⟨j, p, hj, ?_, hrest⟩
      rw [Catalog.extended, List.getElem?_append_left (by omega), hp]
    · -- the new descriptor itself: its target is among those before it
      have hlast : e = d := by
        rw [Catalog.extended, List.getElem?_append_right hi, List.getElem?_singleton] at he
        split at he
        · exact (Option.some.inj he).symm
        · cases he
      subst hlast
      obtain ⟨p, hp, hname, hid⟩ := hd.target_known target htarget
      obtain ⟨hmem, halias⟩ := mem_primaries.mp hp
      obtain ⟨j, hj⟩ := List.mem_iff_getElem?.mp hmem
      have hjlt := (List.getElem?_eq_some_iff.mp hj).1
      refine ⟨j, p, by omega, ?_, halias, hname, hid⟩
      rw [Catalog.extended, List.getElem?_append_left hjlt, hj]
  byId_locates := by
    refine h.byId_locates.concat fun id hid e he hsame => ?_
    rw [Descriptor.primaryId?_eq_some_iff] at hid hsame
    have haliasOf : d.aliasOf = none := by simpa [Descriptor.isAlias] using hid.1
    exact hd.id_new haliasOf e (mem_primaries.mpr ⟨he, hsame.1⟩) (hsame.2.trans hid.2.symm)
  byName_locates := by
    refine h.byName_locates.concat fun name hname e he hsame => ?_
    exact hd.name_new e he (Option.some.inj (hsame.trans hname.symm))

end Coherent

/-- **Built catalogs are in step with themselves.** -/
theorem Built.coherent {c : Catalog} (h : c.Built) : c.Coherent := by
  induction h with
  | empty =>
    exact ⟨fun _ h => (List.not_mem_nil h).elim, fun _ _ _ h => by simp [Catalog.empty] at h,
      fun _ _ => by simp [Catalog.empty], fun _ _ => by simp [Catalog.empty]⟩
  | register _ hreg ih =>
    obtain ⟨hadmits, rfl⟩ := ih.register_eq_ok_iff.mp hreg
    exact ih.extended hadmits

/-! ### Runs of calls -/

/-- The catalog that is left when a descriptor was handed to it, whatever the answer. -/
def attempt (c : Catalog) (d : Descriptor) : Catalog := (registering d).leaves c

/-- The catalog after descriptors were handed to it, one after the other. -/
def attempts (c : Catalog) (ds : List Descriptor) : Catalog := ds.foldl attempt c

theorem attempt_of_ok {c c' : Catalog} {d : Descriptor} (h : c.register d = .ok c') :
    c.attempt d = c' :=
  Action.leaves_of_result_ok h

/-- **A descriptor that is refused leaves nothing behind.** -/
theorem attempt_of_error {c : Catalog} {d : Descriptor} {e : CatalogError}
    (h : c.register d = .error e) : c.attempt d = c := by
  rw [register_eq] at h
  rw [attempt, Action.leaves, runFrom_registering]
  cases herror : c.registrationError? d with
  | none =>
    rw [herror] at h
    cases h
  | some _ => rfl

theorem Built.attempt {c : Catalog} (h : c.Built) (d : Descriptor) : (c.attempt d).Built := by
  cases hreg : c.register d with
  | ok c' => exact attempt_of_ok hreg ▸ h.register hreg
  | error e => exact (attempt_of_error hreg).symm ▸ h

theorem Built.attempts {c : Catalog} (h : c.Built) (ds : List Descriptor) :
    (c.attempts ds).Built := by
  induction ds generalizing c with
  | nil => exact h
  | cons d ds ih => exact ih (h.attempt d)

theorem attempts_concat (c : Catalog) (ds : List Descriptor) (d : Descriptor) :
    c.attempts (ds ++ [d]) = (c.attempts ds).attempt d := by
  rw [attempts, List.foldl_append]
  rfl

namespace Coherent

variable {c : Catalog} {d : Descriptor}

theorem attempt_of_admits (h : c.Coherent) (hd : c.Admits d) :
    c.register d = .ok (c.attempt d) ∧ c.attempt d = c.extended d := by
  have hreg := h.register_eq_ok_iff.mpr ⟨hd, rfl⟩
  have hafter : c.attempt d = c.extended d := attempt_of_ok hreg
  exact ⟨hafter ▸ hreg, hafter⟩

theorem attempt_of_not_admits (h : c.Coherent) (hd : ¬ c.Admits d) :
    (∃ e, c.register d = .error e) ∧ c.attempt d = c := by
  cases hreg : c.register d with
  | ok c' => exact absurd (h.register_eq_ok_iff.mp hreg).1 hd
  | error e => exact ⟨⟨e, rfl⟩, attempt_of_error hreg⟩

theorem lookup_eq_error_iff (h : c.Coherent) (id : String) (e : CatalogError) :
    c.lookup id = .error e ↔ (∀ p ∈ c.primaries, p.id ≠ id) ∧ e = .missing id := by
  rw [← h.get?_eq_none_iff, lookup]
  cases c.get? id <;> simp [eq_comm]

end Coherent

/-- **A catalog stays in step with itself.** Hand any descriptors to the empty catalog, one after
the other, whether they fit or not. Then all ids are proper, no two descriptors share a name and no
two primaries an id, every alias stands behind the primary it names and has its id, and the tables
give exactly the positions of the primaries by id and of all descriptors by name. So looking an id
up finds the one primary that has it and never an alias, and every descriptor is found by its name.
One more descriptor is registered exactly when it fits, and listed last; otherwise there is an error
and the catalog is what it was. -/
theorem attempts_coherent (ds : List Descriptor) :
    (empty.attempts ds).Coherent ∧
    ((empty.attempts ds).descriptors.map (·.name)).Nodup ∧
    ((empty.attempts ds).primaries.map (·.id)).Nodup ∧
    (∀ id d, (empty.attempts ds).lookup id = .ok d ↔
      d ∈ (empty.attempts ds).primaries ∧ d.id = id) ∧
    (∀ id e, (empty.attempts ds).lookup id = .error e ↔
      (∀ p ∈ (empty.attempts ds).primaries, p.id ≠ id) ∧ e = .missing id) ∧
    (∀ d ∈ (empty.attempts ds).descriptors, (empty.attempts ds).named? d.name = some d) ∧
    (∀ d, (empty.attempts ds).Admits d →
      (empty.attempts ds).register d = .ok (empty.attempts (ds ++ [d])) ∧
      (empty.attempts (ds ++ [d])).descriptors = (empty.attempts ds).descriptors ++ [d]) ∧
    ∀ d, ¬ (empty.attempts ds).Admits d →
      (∃ e, (empty.attempts ds).register d = .error e) ∧
      empty.attempts (ds ++ [d]) = empty.attempts ds := by
  have hbuilt : (empty.attempts ds).Built := Built.empty.attempts ds
  have h := hbuilt.coherent
  refine ⟨h, h.nodup_names, hbuilt.indexed.nodup_ids, h.lookup_eq_ok_iff, h.lookup_eq_error_iff, ?_,
    ?_, ?_⟩
  · intro d hd
    exact (h.named?_eq_some_iff d.name d).mpr ⟨hd, rfl⟩
  · intro d hd
    obtain ⟨hreg, hafter⟩ := h.attempt_of_admits hd
    rw [attempts_concat]
    exact ⟨hreg, by rw [hafter, extended]⟩
  · intro d hd
    rw [attempts_concat]
    exact h.attempt_of_not_admits hd

/-- Of a primary, its name again, its id again, an alias, an alias of that alias and an improper
id, the primary and the first alias are kept. -/
example : (empty.attempts [
    design "LC0001" "A" .info true "t" "m" "d", design "LC0002" "A" .info true "t" "m" "d",
    design "LC0001" "B" .info true "t" "m" "d",
    aliasOf "A" (design "LC0001" "C" .info true "t" "m" "d"),
    aliasOf "C" (design "LC0001" "D" .info true "t" "m" "d"),
    design "LC001" "E" .info true "t" "m" "d"]).descriptors.map (·.name) = ["A", "C"] := by
  decide

end Catalog
end TreeLint
