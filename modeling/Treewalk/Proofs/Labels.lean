import Mathlib.Data.List.Nodup
import Treewalk.Code.Block
import Treewalk.State.Table

/-!
The labels of a block by position. A block can be made exactly if no label is
declared twice among its children; then the position of a label is that of the
child that declares it.
-/
namespace Treewalk.Block

/-- `name` is the first of the names, reading from the left, that stood before. -/
def RepeatsFirst (names : List Name) (name : Name) : Prop :=
  ∃ before after, names = before ++ name :: after ∧ before.Nodup ∧ name ∈ before

theorem not_nodup_of_repeatsFirst {names : List Name} {name : Name}
    (h : RepeatsFirst names name) : ¬ names.Nodup := by
  obtain ⟨before, after, rfl, -, hmem⟩ := h
  intro hnodup
  exact (List.nodup_append.1 hnodup).2.2 name hmem name (by simp) rfl

/-- The search for a repeated label, with the names seen so far read off the text. -/
theorem go_eq (seen names : List Name) (hseen : seen.Nodup) :
    (repeatedLabel?.go seen names = none ∧ (seen.reverse ++ names).Nodup) ∨
      ∃ name, repeatedLabel?.go seen names = some name ∧
        RepeatsFirst (seen.reverse ++ names) name := by
  induction names generalizing seen with
  | nil => exact .inl ⟨rfl, by simpa using hseen⟩
  | cons name rest ih =>
    by_cases hmem : name ∈ seen
    · refine .inr ⟨name, by simp [repeatedLabel?.go, hmem], seen.reverse, rest, rfl, ?_, ?_⟩
      · exact List.nodup_reverse.2 hseen
      · simpa using hmem
    · have hgo : repeatedLabel?.go seen (name :: rest) = repeatedLabel?.go (name :: seen) rest := by
        simp [repeatedLabel?.go, hmem]
      have hsplit : seen.reverse ++ name :: rest = (name :: seen).reverse ++ rest := by simp
      rw [hgo, hsplit]
      exact ih (name :: seen) (List.nodup_cons.2 ⟨hmem, hseen⟩)

theorem exists_repeatsFirst {names : List Name} (h : ¬ names.Nodup) :
    ∃ name, RepeatsFirst names name := by
  rcases go_eq [] names List.nodup_nil with ⟨-, hnodup⟩ | ⟨name, -, hfirst⟩
  · exact absurd hnodup h
  · exact ⟨name, hfirst⟩

theorem repeatedLabel?_cases (children : List Code) :
    (repeatedLabel? children = none ∧ (labels children).Nodup) ∨
      ∃ name, repeatedLabel? children = some name ∧ RepeatsFirst (labels children) name :=
  go_eq [] (labels children) List.nodup_nil

theorem repeatedLabel?_eq_none_iff {children : List Code} :
    repeatedLabel? children = none ↔ (labels children).Nodup := by
  rcases repeatedLabel?_cases children with ⟨hnone, hnodup⟩ | ⟨name, hsome, hfirst⟩
  · exact ⟨fun _ => hnodup, fun _ => hnone⟩
  · have hrepeats := not_nodup_of_repeatsFirst hfirst
    constructor
    · intro hnone
      rw [hsome] at hnone
      cases hnone
    · exact fun hnodup => absurd hnodup hrepeats

/-- At most one name is the first to be repeated. -/
theorem repeatsFirst_unique {names : List Name} {name other : Name}
    (h : RepeatsFirst names name) (h' : RepeatsFirst names other) : name = other := by
  obtain ⟨before, after, rfl, hnodup, hmem⟩ := h
  obtain ⟨before', after', heq, hnodup', hmem'⟩ := h'
  rcases List.append_eq_append_iff.1 heq with ⟨mid, rfl, htail⟩ | ⟨mid, rfl, htail⟩
  · cases mid with
    | nil => exact (List.cons.inj htail).1
    | cons x mid =>
      -- The repetition of `name` would lie before that of `other`.
      obtain ⟨rfl, -⟩ := List.cons.inj htail
      exact absurd rfl ((List.nodup_append.1 hnodup').2.2 name hmem name (by simp))
  · cases mid with
    | nil => exact (List.cons.inj htail).1.symm
    | cons x mid =>
      obtain ⟨rfl, -⟩ := List.cons.inj htail
      exact absurd rfl ((List.nodup_append.1 hnodup).2.2 other hmem' other (by simp))

theorem repeatedLabel?_eq_some_iff {children : List Code} {name : Name} :
    repeatedLabel? children = some name ↔ RepeatsFirst (labels children) name := by
  rcases repeatedLabel?_cases children with ⟨hnone, hnodup⟩ | ⟨other, hsome, hfirst⟩
  · constructor
    · intro hsome
      rw [hnone] at hsome
      cases hsome
    · exact fun h => absurd hnodup (not_nodup_of_repeatsFirst h)
  · rw [hsome]
    constructor
    · intro heq
      exact Option.some.inj heq ▸ hfirst
    · exact fun h => congrArg some (repeatsFirst_unique hfirst h)

theorem mem_labelTable {children : List Code} {name : Name} {i : Nat} :
    (name, i) ∈ labelTable children ↔ children[i]? = some (.label name) := by
  simp only [labelTable, List.mem_filterMap]
  constructor
  · rintro ⟨⟨child, j⟩, hmem, hentry⟩
    rw [List.mem_zipIdx_iff_getElem?] at hmem
    obtain ⟨label, hlabel, heq⟩ := Option.map_eq_some_iff.1 hentry
    cases heq
    cases child with
    | label label =>
      cases hlabel
      exact hmem
    | _ => cases hlabel
  · intro hchild
    exact ⟨(.label name, i), List.mem_zipIdx_iff_getElem?.2 hchild, rfl⟩

/-- Where no label is declared twice, a label is found at the child that declares it. -/
theorem position?_eq_some_iff {children : List Code} (h : (labels children).Nodup) {name : Name}
    {i : Nat} : position? children name = some i ↔ children[i]? = some (.label name) := by
  rw [← mem_labelTable]
  refine Table.lookup_eq_some_iff_mem ?_
  rwa [map_fst_labelTable]

theorem mem_labels_of_position? {children : List Code} {label : Name} {i : Nat}
    (h : position? children label = some i) : label ∈ labels children := by
  by_contra hmem
  cases h.symm.trans (position?_eq_none_iff.2 hmem)

theorem exists_split_of_mem_labels {children : List Code} {label : Name}
    (h : label ∈ labels children) : ∃ front rest, children = front ++ .label label :: rest := by
  obtain ⟨n, hmem, hn⟩ := List.mem_filterMap.1 h
  cases n with
  | label name =>
    cases hn
    exact List.append_of_mem hmem
  | _ => cases hn

theorem position?_of_split {children front rest : List Code} {label : Name}
    (hlabels : (labels children).Nodup) (h : children = front ++ .label label :: rest) :
    position? children label = some front.length ∧
      children.drop front.length = .label label :: rest := by
  rw [position?_eq_some_iff hlabels, h]
  simp

/-- Where no label is declared twice, one that a later child declares is found there. -/
theorem position?_later {children earlier later : List Code} {child : Code}
    (hlabels : (labels children).Nodup) (hsplit : children = earlier ++ child :: later)
    {label : Name} (h : label ∈ labels later) : ∃ i skipped rest,
      position? children label = some i ∧ later = skipped ++ rest ∧ children.drop i = rest := by
  obtain ⟨skipped, rest, rfl⟩ := exists_split_of_mem_labels h
  have hchildren : children = (earlier ++ child :: skipped) ++ .label label :: rest := by
    simp [hsplit]
  obtain ⟨hposition, hdrop⟩ := position?_of_split hlabels hchildren
  exact ⟨_, skipped, _, hposition, rfl, hdrop⟩

/-- The positions depend on where labels stand and on nothing else. -/
theorem position?_congr {children children' : List Code}
    (h : children.map Code.label? = children'.map Code.label?) :
    position? children = position? children' := by
  have htable : ∀ codes : List Code, labelTable codes = (codes.map Code.label?).zipIdx.filterMap
      fun (label, i) => label.map fun name => (name, i) := by
    intro codes
    rw [List.zipIdx_map, List.filterMap_map]
    rfl
  funext name
  rw [position?, position?, htable, htable, h]

end Treewalk.Block
