import Mathlib.Data.List.Perm.Basic
import Mathlib.Data.List.Nodup

/-!
# Persistent maps

A key-value store as a client sees it: writing, reading and scanning.  The laws are those
of a finite map, and a scan meets every key once, in whatever order.
-/

namespace IotChain.Store

/-- A store with keys in `K` and values in `V`. -/
structure KeyValueStore (K V : Type) [DecidableEq K] where
  State : Type
  empty : State
  put : State → K → V → State
  get : State → K → Option V
  scan : State → List (K × V)
  get_empty : ∀ k, get empty k = none
  get_put : ∀ s k v k', get (put s k v) k' = if k' = k then some v else get s k'
  mem_scan : ∀ s k v, (k, v) ∈ scan s ↔ get s k = some v
  nodup_scan : ∀ s, ((scan s).map Prod.fst).Nodup

namespace KeyValueStore

variable {K V : Type} [DecidableEq K] (store : KeyValueStore K V)

@[simp]
theorem scan_empty : store.scan store.empty = [] := by
  apply List.eq_nil_iff_forall_not_mem.mpr
  rintro ⟨k, v⟩ member
  rw [store.mem_scan, store.get_empty] at member
  cases member

theorem mem_scan_put {s : store.State} {k k' : K} {v v' : V} :
    (k', v') ∈ store.scan (store.put s k v) ↔
      (k' = k ∧ v' = v) ∨ (k' ≠ k ∧ (k', v') ∈ store.scan s) := by
  rw [store.mem_scan, store.get_put, store.mem_scan]
  by_cases same : k' = k
  · simp [same, eq_comm]
  · simp [same]

/-- The entries with other keys. -/
def others (s : store.State) (k : K) : List (K × V) :=
  (store.scan s).filter (·.1 ≠ k)

/-- A write replaces what stands under its key. -/
theorem scan_put_perm (s : store.State) (k : K) (v : V) :
    (store.scan (store.put s k v)).Perm ((k, v) :: store.others s k) := by
  have fresh : (k, v) ∉ store.others s k := by
    intro member
    simpa using (List.mem_filter.mp member).2
  apply (List.perm_ext_iff_of_nodup (store.nodup_scan _).of_map ?_).mpr
  · rintro ⟨k', v'⟩
    rw [mem_scan_put, List.mem_cons, others, List.mem_filter, Prod.mk.injEq]
    simp only [decide_eq_true_eq, and_comm]
  · exact List.nodup_cons.mpr ⟨fresh, (store.nodup_scan s).of_map.filter _⟩

theorem others_of_new {s : store.State} {k : K} (new : store.get s k = none) :
    store.others s k = store.scan s := by
  apply List.filter_eq_self.mpr
  rintro ⟨k', v⟩ member
  rw [store.mem_scan] at member
  rw [decide_eq_true_eq]
  rintro rfl
  rw [new] at member
  cases member

theorem scan_perm_of_held {s : store.State} {k : K} {v : V} (held : store.get s k = some v) :
    (store.scan s).Perm ((k, v) :: store.others s k) := by
  have fresh : (k, v) ∉ store.others s k := by
    intro member
    simpa using (List.mem_filter.mp member).2
  apply (List.perm_ext_iff_of_nodup (store.nodup_scan _).of_map ?_).mpr
  · rintro ⟨k', v'⟩
    rw [List.mem_cons, others, List.mem_filter, Prod.mk.injEq, decide_eq_true_eq]
    by_cases same : k' = k
    · rw [same, store.mem_scan, held]
      simp [eq_comm]
    · simp [same]
  · exact List.nodup_cons.mpr ⟨fresh, (store.nodup_scan s).of_map.filter _⟩

/-- A write under a new key adds one entry. -/
theorem scan_put_of_new {s : store.State} {k : K} (new : store.get s k = none) (v : V) :
    (store.scan (store.put s k v)).Perm ((k, v) :: store.scan s) := by
  have perm := store.scan_put_perm s k v
  rwa [store.others_of_new new] at perm

/-- A write under a key in use does not change what a function makes of the entries, if it
makes the same of the two values. -/
theorem map_scan_put_of_held {α : Type} {s : store.State} {k : K} {v v' : V}
    (held : store.get s k = some v) {f : K × V → α} (same : f (k, v') = f (k, v)) :
    ((store.scan (store.put s k v')).map f).Perm ((store.scan s).map f) := by
  have written := (store.scan_put_perm s k v').map f
  have before := (store.scan_perm_of_held held).map f
  rw [List.map_cons, same] at written
  rw [List.map_cons] at before
  exact written.trans before.symm

end KeyValueStore

/-! ## A store in memory -/

section InMemory

variable {K V : Type} [DecidableEq K]

/-- The entries of a store in memory. -/
abbrev Entries (K V : Type) := { entries : List (K × V) // (entries.map Prod.fst).Nodup }

namespace Entries

/-- The entry replaces the one with the same key, if there is one. -/
def put (entries : Entries K V) (k : K) (v : V) : Entries K V :=
  ⟨(k, v) :: entries.val.filter (·.1 ≠ k), by
    rw [List.map_cons, List.nodup_cons]
    constructor
    · intro member
      rcases List.mem_map.mp member with ⟨entry, kept, same⟩
      simpa [same] using (List.mem_filter.mp kept).2
    · exact entries.property.sublist (List.filter_sublist.map Prod.fst)⟩

/-- The value under a key. -/
def get (entries : Entries K V) (k : K) : Option V :=
  (entries.val.find? (·.1 = k)).map Prod.snd

theorem mem_iff_get (entries : Entries K V) (k : K) (v : V) :
    (k, v) ∈ entries.val ↔ entries.get k = some v := by
  rw [get]
  constructor
  · intro member
    cases found : entries.val.find? (·.1 = k) with
    | none =>
        have differs := List.find?_eq_none.mp found (k, v) member
        simp at differs
    | some entry =>
        have key : entry.1 = k := by simpa using List.find?_some found
        have same : entry = (k, v) :=
          List.inj_on_of_nodup_map entries.property (List.mem_of_find?_eq_some found) member key
        rw [same]
        rfl
  · intro found
    rcases Option.map_eq_some_iff.mp found with ⟨entry, entryFound, value⟩
    have key : entry.1 = k := by simpa using List.find?_some entryFound
    rw [← key, ← value]
    exact List.mem_of_find?_eq_some entryFound

theorem get_put (entries : Entries K V) (k : K) (v : V) (k' : K) :
    (entries.put k v).get k' = if k' = k then some v else entries.get k' := by
  rw [get, get, put, List.find?_cons]
  by_cases same : k' = k
  · rw [if_pos same, decide_eq_true same.symm]
    rfl
  · have kept : (entries.val.filter (·.1 ≠ k)).find? (·.1 = k') =
        entries.val.find? (·.1 = k') := by
      rw [List.find?_filter]
      congr 1
      funext entry
      by_cases key : entry.1 = k'
      · simp [key, same]
      · simp [key]
    rw [if_neg same, decide_eq_false (Ne.symm same)]
    exact congrArg (Option.map Prod.snd) kept

end Entries

/-- A store that keeps its entries in memory. -/
def inMemory (K V : Type) [DecidableEq K] : KeyValueStore K V where
  State := Entries K V
  empty := ⟨[], List.nodup_nil⟩
  put := Entries.put
  get := Entries.get
  scan entries := entries.val
  get_empty _ := rfl
  get_put := Entries.get_put
  mem_scan := Entries.mem_iff_get
  nodup_scan entries := entries.property

end InMemory

end IotChain.Store
