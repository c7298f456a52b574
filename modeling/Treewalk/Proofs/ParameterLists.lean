import Mathlib.Data.List.TakeWhile
import Treewalk.Proofs.Compilation

/-!
How parameter lists are written and read. A list is written as entries between
commas, and an entry is a name with blanks around it, or blanks alone. Reading a
text gives the names of its entries, and every text is made of such entries, so
the parameters of a text written between commas are read as themselves.
-/
namespace Treewalk

/-- A name that an entry can have: some text without a comma, and without a blank at
either end. -/
structure IsParameter (name : Name) : Prop where
  ne_empty : name ≠ ""
  comma_notMem : ',' ∉ name.toList
  first : ∀ c ∈ name.toList.head?, isBlank c = false
  last : ∀ c ∈ name.toList.getLast?, isBlank c = false

def IsPadding (text : String) : Prop := ∀ c ∈ text.toList, isBlank c = true

/-- The entries name the parameters, in order; blank entries name none. -/
inductive Entries : List String → List Name → Prop
  | nil : Entries [] []
  | blank {padding : String} {entries : List String} {names : List Name}
      (hpadding : IsPadding padding) (hrest : Entries entries names) :
      Entries (padding :: entries) names
  | name {left right : String} {name : Name} {entries : List String} {names : List Name}
      (hleft : IsPadding left) (hname : IsParameter name) (hright : IsPadding right)
      (hrest : Entries entries names) :
      Entries ((left ++ name ++ right) :: entries) (name :: names)

section Trimming

theorem trimStart_of_head {cs : List Char} (h : ∀ c ∈ cs.head?, isBlank c = false) :
    trimStart cs = cs := by
  cases cs with
  | nil => rfl
  | cons c cs => exact List.dropWhile_cons_of_neg (by simp [h c rfl])

theorem trimEnd_of_last {cs : List Char} (h : ∀ c ∈ cs.getLast?, isBlank c = false) :
    trimEnd cs = cs := by
  have hreverse : ∀ c ∈ cs.reverse.head?, isBlank c = false := by
    simpa only [List.head?_reverse] using h
  have htrim : cs.reverse.dropWhile isBlank = cs.reverse := trimStart_of_head hreverse
  rw [trimEnd, htrim, List.reverse_reverse]

theorem trimEnd_append_of_blank (cs : List Char) {right : List Char}
    (hright : ∀ c ∈ right, isBlank c = true) : trimEnd (cs ++ right) = trimEnd cs := by
  have hreverse : ∀ c ∈ right.reverse, isBlank c = true := by simpa using hright
  rw [trimEnd, List.reverse_append, List.dropWhile_append_of_pos hreverse, trimEnd]

theorem trimmed_of_blank {cs : List Char} (h : ∀ c ∈ cs, isBlank c = true) : trimmed cs = [] := by
  have hstart : trimStart cs = [] := List.dropWhile_eq_nil_iff.2 h
  rw [trimmed, hstart]
  rfl

/-- Trimming takes away the blanks around a text that has none at its ends. -/
theorem trimmed_padded {left cs right : List Char} (hleft : ∀ c ∈ left, isBlank c = true)
    (hright : ∀ c ∈ right, isBlank c = true) (hne : cs ≠ [])
    (hfirst : ∀ c ∈ cs.head?, isBlank c = false) (hlast : ∀ c ∈ cs.getLast?, isBlank c = false) :
    trimmed (left ++ cs ++ right) = cs := by
  have hhead : ∀ c ∈ (cs ++ right).head?, isBlank c = false := by
    obtain ⟨c, rest, rfl⟩ := List.exists_cons_of_ne_nil hne
    exact hfirst
  have hstart : trimStart (left ++ cs ++ right) = cs ++ right := by
    rw [List.append_assoc]
    exact (List.dropWhile_append_of_pos hleft).trans (trimStart_of_head hhead)
  rw [trimmed, hstart, trimEnd_append_of_blank cs hright, trimEnd_of_last hlast]

theorem isBlank_head_trimStart (cs : List Char) :
    ∀ c ∈ (trimStart cs).head?, isBlank c = false := by
  intro c hc
  have hnot := List.head?_dropWhile_not isBlank cs
  rw [show (cs.dropWhile isBlank).head? = some c from hc] at hnot
  exact hnot

theorem isBlank_last_trimEnd (cs : List Char) :
    ∀ c ∈ (trimEnd cs).getLast?, isBlank c = false := by
  rw [trimEnd, List.getLast?_reverse]
  exact isBlank_head_trimStart cs.reverse

theorem exists_trimStart (cs : List Char) :
    ∃ left, cs = left ++ trimStart cs ∧ ∀ c ∈ left, isBlank c = true := by
  refine ⟨cs.takeWhile isBlank, List.takeWhile_append_dropWhile.symm, ?_⟩
  exact fun c hc => List.mem_takeWhile_imp hc

theorem exists_trimEnd (cs : List Char) :
    ∃ right, cs = trimEnd cs ++ right ∧ ∀ c ∈ right, isBlank c = true := by
  obtain ⟨left, hsplit, hleft⟩ := exists_trimStart cs.reverse
  refine ⟨left.reverse, ?_, by simpa using hleft⟩
  have hreverse := congrArg List.reverse hsplit
  rwa [List.reverse_append, List.reverse_reverse] at hreverse

/-- What trimming takes away are blanks, and it leaves none at the ends. -/
theorem exists_padding (cs : List Char) :
    ∃ left right, cs = left ++ trimmed cs ++ right ∧ (∀ c ∈ left, isBlank c = true) ∧
      (∀ c ∈ right, isBlank c = true) ∧ (∀ c ∈ (trimmed cs).head?, isBlank c = false) ∧
      ∀ c ∈ (trimmed cs).getLast?, isBlank c = false := by
  obtain ⟨left, hstart, hleft⟩ := exists_trimStart cs
  obtain ⟨right, hend, hright⟩ := exists_trimEnd (trimStart cs)
  refine ⟨left, right, ?_, hleft, hright, ?_, isBlank_last_trimEnd _⟩
  · rw [List.append_assoc, trimmed, ← hend]
    exact hstart
  · -- The first character that is left is also the first after the blanks in front.
    intro c hc
    refine isBlank_head_trimStart cs c ?_
    rw [hend, List.head?_append, show (trimEnd (trimStart cs)).head? = some c from hc]
    rfl

end Trimming

section Fields

variable {separator : Char}

theorem fields_of_notMem {cs : List Char} (h : separator ∉ cs) : fields separator cs = [cs] := by
  induction cs with
  | nil => rfl
  | cons c cs ih =>
    obtain ⟨hc, hcs⟩ : separator ≠ c ∧ separator ∉ cs := by simpa using h
    rw [fields, if_neg (Ne.symm hc), ih hcs]

theorem fields_append {field : List Char} (h : separator ∉ field) (rest : List Char) :
    fields separator (field ++ separator :: rest) = field :: fields separator rest := by
  induction field with
  | nil => simp [fields]
  | cons c field ih =>
    obtain ⟨hc, hfield⟩ : separator ≠ c ∧ separator ∉ field := by simpa using h
    rw [List.cons_append, fields, if_neg (Ne.symm hc), ih hfield]

/-- Pieces without a separator are read back from the text between separators. -/
theorem fields_intercalate {pieces : List (List Char)} (hne : pieces ≠ [])
    (h : ∀ piece ∈ pieces, separator ∉ piece) :
    fields separator ([separator].intercalate pieces) = pieces := by
  induction pieces with
  | nil => exact absurd rfl hne
  | cons piece pieces ih =>
    have hpiece : separator ∉ piece := h piece (by simp)
    cases pieces with
    | nil =>
      rw [List.intercalate_singleton]
      exact fields_of_notMem hpiece
    | cons next rest =>
      have hrest : ∀ piece ∈ next :: rest, separator ∉ piece :=
        fun p hp => h p (List.mem_cons_of_mem _ hp)
      rw [List.intercalate_cons_cons, List.append_assoc, List.singleton_append,
        fields_append hpiece, ih (by simp) hrest]

/-- A text is its pieces with separators between them, and no piece has a separator. -/
theorem intercalate_fields (separator : Char) (cs : List Char) :
    [separator].intercalate (fields separator cs) = cs ∧
      ∀ field ∈ fields separator cs, separator ∉ field := by
  induction cs with
  | nil => simp [fields]
  | cons c cs ih =>
    obtain ⟨hjoin, hnone⟩ := ih
    rw [fields]
    obtain ⟨field, rest, hfields⟩ := List.exists_cons_of_ne_nil (fields_ne_nil separator cs)
    rw [hfields] at hjoin hnone ⊢
    split
    · next hc =>
      refine ⟨?_, List.forall_mem_cons.2 ⟨by simp, hnone⟩⟩
      rw [List.intercalate_cons_cons, hjoin, hc]
      rfl
    · next hc =>
      obtain ⟨hfield, hrest⟩ := List.forall_mem_cons.1 hnone
      have hlonger : separator ∉ c :: field := by simp [Ne.symm hc, hfield]
      refine ⟨?_, List.forall_mem_cons.2 ⟨hlonger, hrest⟩⟩
      cases rest with
      | nil => simpa using hjoin
      | cons next rest => simpa [List.intercalate_cons_cons] using hjoin

end Fields

def namesIn (pieces : List (List Char)) : List Name :=
  ((pieces.map trimmed).filter fun piece => !piece.isEmpty).map String.ofList

theorem parameters_eq (text : String) : parameters text = namesIn (fields ',' text.toList) := rfl

theorem namesIn_cons_of_eq_nil {piece : List Char} (h : trimmed piece = [])
    (pieces : List (List Char)) : namesIn (piece :: pieces) = namesIn pieces := by
  simp [namesIn, h]

theorem namesIn_cons_of_ne_nil {piece : List Char} (h : trimmed piece ≠ [])
    (pieces : List (List Char)) :
    namesIn (piece :: pieces) = String.ofList (trimmed piece) :: namesIn pieces := by
  simp [namesIn, h]

namespace Entries

variable {entries : List String} {names : List Name}

theorem namesIn_eq (h : Entries entries names) : namesIn (entries.map String.toList) = names := by
  induction h with
  | nil => rfl
  | blank hpadding hrest ih =>
    rw [List.map_cons, namesIn_cons_of_eq_nil (trimmed_of_blank hpadding), ih]
  | @name left right name entries names hleft hname hright hrest ih =>
    have hne : name.toList ≠ [] := by simpa using hname.ne_empty
    have htrimmed : trimmed (left ++ name ++ right).toList = name.toList := by
      simpa using trimmed_padded hleft hright hne hname.first hname.last
    rw [List.map_cons, namesIn_cons_of_ne_nil (by rwa [htrimmed]), htrimmed, ih, String.ofList_toList]

theorem comma_notMem (h : Entries entries names) : ∀ entry ∈ entries, ',' ∉ entry.toList := by
  have hpadding : ∀ {padding : String}, IsPadding padding → ',' ∉ padding.toList := by
    intro padding hblank hmem
    have hcomma := hblank ',' hmem
    revert hcomma
    decide
  induction h with
  | nil => simp
  | blank hblank hrest ih => exact List.forall_mem_cons.2 ⟨hpadding hblank, ih⟩
  | name hleft hname hright hrest ih =>
    refine List.forall_mem_cons.2 ⟨?_, ih⟩
    simp [hpadding hleft, hname.comma_notMem, hpadding hright]

theorem isParameter (h : Entries entries names) : ∀ name ∈ names, IsParameter name := by
  induction h with
  | nil => simp
  | blank hpadding hrest ih => exact ih
  | name hleft hname hright hrest ih => exact List.forall_mem_cons.2 ⟨hname, ih⟩

/-- What the entries name is read from them, written between commas. -/
theorem parameters_intercalate (h : Entries entries names) :
    parameters (",".intercalate entries) = names := by
  have hjoined : (",".intercalate entries).toList = [','].intercalate (entries.map String.toList) :=
    String.toList_intercalate
  rw [parameters_eq, hjoined]
  cases entries with
  | nil =>
    cases h
    rfl
  | cons entry entries =>
    have hnone : ∀ piece ∈ (entry :: entries).map String.toList, ',' ∉ piece := by
      simpa using h.comma_notMem
    rw [fields_intercalate (by simp) hnone, h.namesIn_eq]

/-- Names that parameters can have are entries themselves. -/
theorem of_names {names : List Name} (h : ∀ name ∈ names, IsParameter name) :
    Entries names names := by
  induction names with
  | nil => exact .nil
  | cons name names ih =>
    obtain ⟨hname, hnames⟩ := List.forall_mem_cons.1 h
    have hempty : IsPadding "" := by simp [IsPadding]
    simpa using Entries.name hempty hname hempty (ih hnames)

/-- Pieces without a comma are entries, whatever is in them. -/
theorem of_pieces {pieces : List (List Char)} (h : ∀ piece ∈ pieces, ',' ∉ piece) :
    Entries (pieces.map String.ofList) (namesIn pieces) := by
  induction pieces with
  | nil => exact .nil
  | cons piece pieces ih =>
    obtain ⟨hpiece, hpieces⟩ := List.forall_mem_cons.1 h
    obtain ⟨left, right, hsplit, hleft, hright, hfirst, hlast⟩ := exists_padding piece
    have hrest := ih hpieces
    by_cases hnil : trimmed piece = []
    · rw [namesIn_cons_of_eq_nil hnil]
      refine .blank ?_ hrest
      rw [hnil, List.append_nil] at hsplit
      rw [IsPadding, String.toList_ofList, hsplit]
      exact fun c hc => (List.mem_append.1 hc).elim (hleft c) (hright c)
    · have hcomma : ',' ∉ trimmed piece := by
        rw [hsplit] at hpiece
        simp only [List.mem_append, not_or] at hpiece
        exact hpiece.1.2
      have hname : IsParameter (String.ofList (trimmed piece)) := by
        constructor
        · simpa using hnil
        · simpa using hcomma
        · simpa using hfirst
        · simpa using hlast
      have hentry : String.ofList piece =
          String.ofList left ++ String.ofList (trimmed piece) ++ String.ofList right := by
        rw [← String.ofList_append, ← String.ofList_append, ← hsplit]
      rw [namesIn_cons_of_ne_nil hnil, List.map_cons, hentry]
      exact .name (by simpa [IsPadding] using hleft) hname (by simpa [IsPadding] using hright) hrest

end Entries

/-- Every text is made of entries that name its parameters. -/
theorem exists_entries (text : String) :
    ∃ entries, text = ",".intercalate entries ∧ Entries entries (parameters text) := by
  obtain ⟨hjoin, hnone⟩ := intercalate_fields ',' text.toList
  refine ⟨(fields ',' text.toList).map String.ofList, ?_, Entries.of_pieces hnone⟩
  rw [← String.toList_inj, String.toList_intercalate, List.map_map]
  have hpieces : (fields ',' text.toList).map (String.toList ∘ String.ofList) =
      fields ',' text.toList := by
    simp [Function.comp_def]
  rw [hpieces]
  exact hjoin.symm

/-- The parameters of a compiled function are those of its `args`, or none without it. -/
theorem params_of_compile {scope : Scope} {tree : Tree} {name : Name} {params : List Name}
    {body : Code} (h : compile scope tree = .ok (.definition name params body)) :
    params = ((tree.attribute? "args").map parameters).getD [] := by
  cases compiled_of_compile h with
  | function hform hname hchildren hbody =>
    cases tree.attribute? "args" with
    | none => rfl
    | some text => rfl

/-- Parameter lists are read as they are written. A compiled function has the parameters
that its `args` names, and none without it. Each of them has some text, no comma, and no
blank at either end. A text names exactly what its entries between the commas name, in
order and with repetitions, whatever blanks stand around a name and whatever blank entries
between names. So the parameters of a text, written between commas, are its parameters
again. -/
theorem parameter_lists_read_back :
    (∀ (scope : Scope) (tree : Tree) (name : Name) (params : List Name) (body : Code),
      compile scope tree = .ok (.definition name params body) →
        params = ((tree.attribute? "args").map parameters).getD []) ∧
    (∀ (text : String), ∀ name ∈ parameters text, IsParameter name) ∧
    (∀ (text : String) (names : List Name),
      parameters text = names ↔
        ∃ entries, text = ",".intercalate entries ∧ Entries entries names) ∧
    ∀ text : String, parameters (",".intercalate (parameters text)) = parameters text := by
  have hnames : ∀ text : String, ∀ name ∈ parameters text, IsParameter name := by
    intro text
    obtain ⟨entries, -, hentries⟩ := exists_entries text
    exact hentries.isParameter
  refine ⟨fun _ _ _ _ _ h => params_of_compile h, hnames, ?_, ?_⟩
  · intro text names
    constructor
    · rintro rfl
      exact exists_entries text
    · rintro ⟨entries, rfl, hentries⟩
      exact hentries.parameters_intercalate
  · exact fun text => (Entries.of_names (hnames text)).parameters_intercalate

def repeating : Tree where
  tag := "function"
  attributes := .ofList [("name", "repeat"), ("args", "\u00a0x , ,first y,\u3000,x")]
  children := [{ tag := "var", attributes := .ofList [("name", "x")] }]

/-- The list of `repeat` is read as the three names it is written with. -/
theorem repeating_reads_back :
    compile ⟨.reject, fun _ => .absent⟩ repeating =
      .ok (.definition "repeat" ["x", "first y", "x"] (.var "x")) ∧
    (∀ name ∈ ["x", "first y", "x"], IsParameter name) ∧
    Entries ["\u00a0x ", " ", "first y", "\u3000", "x"] ["x", "first y", "x"] ∧
    parameters "\u00a0x , ,first y,\u3000,x" = ["x", "first y", "x"] ∧
    parameters "x,first y,x" = ["x", "first y", "x"] := by
  obtain ⟨hparams, hnames, hiff, hagain⟩ := parameter_lists_read_back
  have hcompile : compile ⟨.reject, fun _ => .absent⟩ repeating =
      .ok (.definition "repeat" ["x", "first y", "x"] (.var "x")) := rfl
  have hread : parameters "\u00a0x , ,first y,\u3000,x" = ["x", "first y", "x"] :=
    (hparams _ _ _ _ _ hcompile).symm
  have hisParameter := hnames "\u00a0x , ,first y,\u3000,x"
  rw [hread] at hisParameter
  have hentries : Entries ["\u00a0x ", " ", "first y", "\u3000", "x"] ["x", "first y", "x"] := by
    have hx : IsParameter "x" := hisParameter "x" (by simp)
    have hy : IsParameter "first y" := hisParameter "first y" (by simp)
    have hempty : IsPadding "" := by simp [IsPadding]
    have hspace : IsPadding " " := by simp [IsPadding, isBlank]
    have hwide : IsPadding "\u00a0" ∧ IsPadding "\u3000" := by simp [IsPadding, isBlank]
    have hlast : Entries ["x"] ["x"] := .name hempty hx hempty .nil
    have hmiddle : Entries ["first y", "\u3000", "x"] ["first y", "x"] :=
      .name hempty hy hempty (.blank hwide.2 hlast)
    exact .name hwide.1 hx hspace (.blank hspace hmiddle)
  refine ⟨hcompile, hisParameter, hentries, ?_, ?_⟩
  · exact (hiff _ _).2 ⟨_, rfl, hentries⟩
  · have hjoined := hagain "\u00a0x , ,first y,\u3000,x"
    rw [hread] at hjoined
    exact hjoined

end Treewalk
