/-!
Attributes of a tree: texts under keys, each key once. They are kept in the
order of their keys, so attributes with the same contents are equal.
-/
namespace Treewalk

structure Attributes where
  entries : List (String × String) := []
  sorted : entries.Pairwise (fun a b => a.1 < b.1) := by simp

namespace Attributes

instance : DecidableEq Attributes := fun a b =>
  decidable_of_iff (a.entries = b.entries)
    ⟨fun h => by cases a; cases b; cases h; rfl, fun h => h ▸ rfl⟩

def empty : Attributes := {}

def get? (attributes : Attributes) (key : String) : Option String :=
  attributes.entries.lookup key

def isEmpty (attributes : Attributes) : Bool := attributes.entries.isEmpty

/-- Puts an entry at its place, over an entry with the same key. -/
def insertEntry (key value : String) : List (String × String) → List (String × String)
  | [] => [(key, value)]
  | (k, v) :: rest =>
    if key < k then (key, value) :: (k, v) :: rest
    else if key = k then (key, value) :: rest
    else (k, v) :: insertEntry key value rest

theorem mem_insertEntry {key value : String} {entries : List (String × String)}
    {e : String × String} (h : e ∈ insertEntry key value entries) :
    e = (key, value) ∨ e ∈ entries := by
  induction entries with
  | nil => simpa [insertEntry] using h
  | cons first rest ih =>
    simp only [insertEntry] at h
    split at h
    · simpa using h
    · split at h
      · simp only [List.mem_cons] at h ⊢
        exact h.imp_right .inr
      · simp only [List.mem_cons] at h ⊢
        rcases h with h | h
        · exact .inr (.inl h)
        · exact (ih h).imp_right .inr

theorem pairwise_insertEntry (key value : String) {entries : List (String × String)}
    (h : entries.Pairwise (fun a b => a.1 < b.1)) :
    (insertEntry key value entries).Pairwise (fun a b => a.1 < b.1) := by
  induction entries with
  | nil => simp [insertEntry]
  | cons first rest ih =>
    obtain ⟨hfirst, hrest⟩ := List.pairwise_cons.1 h
    simp only [insertEntry]
    split
    · next hlt =>
      refine List.pairwise_cons.2 ⟨?_, h⟩
      intro e he
      rcases List.mem_cons.1 he with rfl | he
      · exact hlt
      · exact String.lt_trans hlt (hfirst e he)
    · next hnlt =>
      split
      · next heq => exact List.pairwise_cons.2 ⟨fun e he => heq ▸ hfirst e he, hrest⟩
      · next hne =>
        refine List.pairwise_cons.2 ⟨?_, ih hrest⟩
        intro e he
        rcases mem_insertEntry he with rfl | he
        · exact String.not_le.1 fun hle => hne (String.le_antisymm hle (String.not_lt.1 hnlt))
        · exact hfirst e he

def insert (attributes : Attributes) (key value : String) : Attributes where
  entries := insertEntry key value attributes.entries
  sorted := pairwise_insertEntry key value attributes.sorted

theorem lookup_entry (key : String) (entry : String × String) (rest : List (String × String)) :
    (entry :: rest).lookup key = if key = entry.1 then some entry.2 else rest.lookup key := by
  obtain ⟨k, v⟩ := entry
  by_cases h : key = k
  · simp [h]
  · simp [List.lookup_cons, beq_eq_false_iff_ne.2 h, h]

theorem lookup_insertEntry (key value other : String) (entries : List (String × String)) :
    (insertEntry key value entries).lookup other =
      if other = key then some value else entries.lookup other := by
  induction entries with
  | nil => simp [insertEntry]
  | cons first rest ih =>
    simp only [insertEntry]
    split
    · simp only [lookup_entry]
    · split
      · next heq =>
        by_cases h : other = key
        · simp [h]
        · simp [lookup_entry, h, ← heq]
      · next hne =>
        by_cases h : other = first.1
        · have hk : other ≠ key := fun hk => hne (hk.symm.trans h)
          simp only [lookup_entry, if_pos h, if_neg hk]
        · simp only [lookup_entry, if_neg h, ih]

theorem get?_insert (attributes : Attributes) (key value other : String) :
    (attributes.insert key value).get? other =
      if other = key then some value else attributes.get? other :=
  lookup_insertEntry ..

/-- The later of two entries with one key wins. -/
def ofList (entries : List (String × String)) : Attributes :=
  entries.foldl (fun attributes (key, value) => attributes.insert key value) empty

end Attributes

end Treewalk
