/-!
Tables: entries under keys, each key once. Putting an entry replaces the one
its key had.
-/
namespace Treewalk

structure Table (α : Type) where
  entries : List (String × α) := []
  nodup : (entries.map Prod.fst).Nodup := by simp

namespace Table

variable {α : Type}

def empty : Table α := {}

instance : Inhabited (Table α) := ⟨empty⟩

def get? (table : Table α) (key : String) : Option α := table.entries.lookup key

def put (table : Table α) (key : String) (a : α) : Table α where
  entries := (key, a) :: table.entries.filter fun entry => entry.1 != key
  nodup := by
    rw [List.map_cons, List.nodup_cons]
    exact ⟨by simp, table.nodup.sublist (List.filter_sublist.map _)⟩

def size (table : Table α) : Nat := table.entries.length

def keys (table : Table α) : List String := table.entries.map Prod.fst

@[simp] theorem get?_empty (key : String) : (empty : Table α).get? key = none := rfl

/-- Where each key stands once, looking it up finds its entry. -/
theorem lookup_eq_some_iff_mem {entries : List (String × α)} (h : (entries.map Prod.fst).Nodup)
    {key : String} {a : α} : entries.lookup key = some a ↔ (key, a) ∈ entries := by
  rw [List.lookup_eq_some_iff]
  constructor
  · rintro ⟨before, after, rfl, -⟩
    simp
  · intro hmem
    obtain ⟨before, after, rfl⟩ := List.append_of_mem hmem
    refine ⟨before, after, rfl, ?_⟩
    intro entry hentry
    rw [List.map_append] at h
    have hne := (List.nodup_append.1 h).2.2 entry.1 (List.mem_map_of_mem hentry) key (by simp)
    simpa using Ne.symm hne

theorem lookup_filter_ne {key other : String} (h : other ≠ key) (entries : List (String × α)) :
    (entries.filter fun entry => entry.1 != key).lookup other = entries.lookup other := by
  induction entries with
  | nil => rfl
  | cons entry rest ih =>
    obtain ⟨k, a⟩ := entry
    by_cases hk : k = key
    · have hb : (other == k) = false := by simpa [hk] using h
      simp [hk, ih, List.lookup_cons, hk ▸ hb]
    · simp only [List.filter_cons, bne_iff_ne, ne_eq, hk, not_false_eq_true, if_true,
        List.lookup_cons, ih]

theorem get?_put (table : Table α) (key other : String) (a : α) :
    (table.put key a).get? other = if other = key then some a else table.get? other := by
  by_cases h : other = key
  · simp [get?, put, h]
  · have hb : (other == key) = false := by simpa using h
    simp only [get?, put, List.lookup_cons, hb, if_neg h, lookup_filter_ne h]

@[simp] theorem get?_put_self (table : Table α) (key : String) (a : α) :
    (table.put key a).get? key = some a := by
  simp [get?_put]

theorem get?_put_of_ne {key other : String} (h : other ≠ key) (table : Table α) (a : α) :
    (table.put key a).get? other = table.get? other := by
  simp [get?_put, h]

theorem mem_keys_iff {table : Table α} {key : String} :
    key ∈ table.keys ↔ (table.get? key).isSome := by
  simp [keys, get?, List.lookup_isSome_iff]

end Table

end Treewalk
