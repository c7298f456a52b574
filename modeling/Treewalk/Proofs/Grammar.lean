import Treewalk.Proofs.Compilation
import Treewalk.Proofs.Labels

/-!
The grammar of trees, apart from the compiler. A tree is well formed, or it has a
first violation: its own attribute comes first, then the number of its children,
then the first violation among its children from left to right, and a label that
is declared twice comes last. Main statement: compilation succeeds exactly on the
well-formed trees, and fails on all others with their first violation.
-/
namespace Treewalk

def Tag.key? : Tag → Option String
  | .read | .declare | .label | .store | .function => some "name"
  | .goto => some "label"
  | .number | .text => some "value"
  | .block | .branch | .call => none

namespace Tree

/-- A form whose children are not looked at, with the attribute it needs. -/
inductive Leaf (tree : Tree) : Prop
  | read (hform : tree.form? = some .read) (hname : tree.attribute? "name" ≠ none) : Leaf tree
  | declare (hform : tree.form? = some .declare) (hname : tree.attribute? "name" ≠ none) :
      Leaf tree
  | label (hform : tree.form? = some .label) (hname : tree.attribute? "name" ≠ none) : Leaf tree
  | goto (hform : tree.form? = some .goto) (hlabel : tree.attribute? "label" ≠ none) : Leaf tree
  | text (hform : tree.form? = some .text) (hvalue : tree.attribute? "value" ≠ none) : Leaf tree
  | number {raw : String} (hform : tree.form? = some .number)
      (hvalue : tree.attribute? "value" = some raw)
      (hread : Numeral.read? (String.ofList (trimmed raw.toList)) ≠ none) : Leaf tree

/-- A form whose children matter, with the attribute and the number of children it needs. -/
inductive Inner (tree : Tree) : Prop
  | block (hform : tree.form? = some .block) : Inner tree
  | store (hform : tree.form? = some .store) (hname : tree.attribute? "name" ≠ none)
      (hcount : tree.children.length = 1) : Inner tree
  | function (hform : tree.form? = some .function) (hname : tree.attribute? "name" ≠ none)
      (hcount : tree.children.length = 1) : Inner tree
  | branch (hform : tree.form? = some .branch)
      (hcount : tree.children.length = 2 ∨ tree.children.length = 3) : Inner tree
  | call (hform : tree.form? = some .call)
      (hcallee : tree.attribute? "fun" ≠ none ∨ tree.children ≠ []) : Inner tree

/-- The tree is of the grammar. Where unknown tags are ignored, a tree with one is of
it too, whatever stands below. -/
inductive WellFormed (policy : Policy) : Tree → Prop
  | unknown {tree : Tree} (hform : tree.form? = none) (hpolicy : policy = .ignore) :
      WellFormed policy tree
  | leaf {tree : Tree} (h : tree.Leaf) : WellFormed policy tree
  | inner {tree : Tree} (h : tree.Inner)
      (hchildren : ∀ child ∈ tree.children, WellFormed policy child)
      (hlabels : tree.form? = some .block → (tree.children.filterMap label?).Nodup) :
      WellFormed policy tree

/-- The first thing wrong with a tree: its own attribute, the number of its children,
the first violation of its first child that has one, a label declared twice. -/
inductive FirstViolation (policy : Policy) : Tree → Malformed → Prop
  | unknown {tree : Tree} (hform : tree.form? = none) (hpolicy : policy = .reject) :
      FirstViolation policy tree (.unknownTag tree.tag)
  | missing {tree : Tree} {form : Tag} {key : String} (hform : tree.form? = some form)
      (hkey : form.key? = some key) (hmissing : tree.attribute? key = none) :
      FirstViolation policy tree (.missingAttribute form key)
  | badNumber {tree : Tree} {raw : String} (hform : tree.form? = some .number)
      (hvalue : tree.attribute? "value" = some raw)
      (hread : Numeral.read? (String.ofList (trimmed raw.toList)) = none) :
      FirstViolation policy tree (.badNumber raw)
  | notOne {tree : Tree} {form : Tag} (hform : tree.form? = some form)
      (hone : form = .store ∨ form = .function) (hname : tree.attribute? "name" ≠ none)
      (hcount : tree.children.length ≠ 1) :
      FirstViolation policy tree (.wrongChildCount form "exactly 1" tree.children.length)
  | notTwoOrThree {tree : Tree} (hform : tree.form? = some .branch)
      (htwo : tree.children.length ≠ 2) (hthree : tree.children.length ≠ 3) :
      FirstViolation policy tree (.wrongChildCount .branch "2 or 3" tree.children.length)
  | noCallee {tree : Tree} (hform : tree.form? = some .call)
      (hfun : tree.attribute? "fun" = none) (hchildren : tree.children = []) :
      FirstViolation policy tree (.wrongChildCount .call "at least 1" 0)
  | child {tree child : Tree} {before after : List Tree} {cause : Malformed} (h : tree.Inner)
      (hchildren : tree.children = before ++ child :: after)
      (hbefore : ∀ earlier ∈ before, earlier.WellFormed policy)
      (hchild : FirstViolation policy child cause) : FirstViolation policy tree cause
  | duplicate {tree : Tree} {name : Name} (hform : tree.form? = some .block)
      (hchildren : ∀ child ∈ tree.children, child.WellFormed policy)
      (hrepeats : Block.RepeatsFirst (tree.children.filterMap label?) name) :
      FirstViolation policy tree (.duplicateLabel name)

/-- All of the trees satisfy a predicate, or there is a first one that does not. -/
theorem forall_or_first (p : Tree → Prop) (trees : List Tree) :
    (∀ tree ∈ trees, p tree) ∨ ∃ before tree after,
      trees = before ++ tree :: after ∧ (∀ earlier ∈ before, p earlier) ∧ ¬ p tree := by
  induction trees with
  | nil => exact .inl (by simp)
  | cons first rest ih =>
    by_cases hfirst : p first
    · rcases ih with hall | ⟨before, tree, after, rfl, hbefore, htree⟩
      · exact .inl (by simpa using ⟨hfirst, hall⟩)
      · exact .inr ⟨first :: before, tree, after, rfl, by simpa using ⟨hfirst, hbefore⟩, htree⟩
    · exact .inr ⟨[], first, rest, rfl, by simp, hfirst⟩

/-- What is wrong with a tree whose own attribute and number of children are right. -/
theorem firstViolation_of_inner {policy : Policy} {tree : Tree} (h : tree.Inner)
    (hmalformed : ¬ tree.WellFormed policy)
    (ih : ∀ child ∈ tree.children, ¬ child.WellFormed policy →
      ∃ cause, child.FirstViolation policy cause) :
    ∃ cause, tree.FirstViolation policy cause := by
  rcases forall_or_first (WellFormed policy) tree.children with
    hall | ⟨before, child, after, hchildren, hbefore, hchild⟩
  · have hrepeated : tree.form? = some .block ∧ ¬ (tree.children.filterMap label?).Nodup := by
      by_contra hlabels
      refine hmalformed (.inner h hall ?_)
      intro hform
      by_contra hnodup
      exact hlabels ⟨hform, hnodup⟩
    obtain ⟨name, hrepeats⟩ := Block.exists_repeatsFirst hrepeated.2
    exact ⟨_, .duplicate hrepeated.1 hall hrepeats⟩
  · have hmem : child ∈ tree.children := by simp [hchildren]
    obtain ⟨cause, hcause⟩ := ih child hmem hchild
    exact ⟨cause, .child h hchildren hbefore hcause⟩

theorem exists_firstViolation {policy : Policy} {tree : Tree}
    (h : ¬ tree.WellFormed policy) : ∃ cause, tree.FirstViolation policy cause := by
  induction tree using Tree.induction with
  | h tree ih =>
    cases hform : tree.form? with
    | none =>
      have hpolicy : policy = .reject := by
        cases policy with
        | reject => rfl
        | ignore => exact absurd (.unknown hform rfl) h
      exact ⟨_, .unknown hform hpolicy⟩
    | some form =>
      -- A form that needs an attribute has it from here on.
      by_cases hkey : ∃ key, form.key? = some key ∧ tree.attribute? key = none
      · obtain ⟨key, hkey, hmissing⟩ := hkey
        exact ⟨_, .missing hform hkey hmissing⟩
      have hhas : ∀ key, form.key? = some key → tree.attribute? key ≠ none :=
        fun key hsome hnone => hkey ⟨key, hsome, hnone⟩
      cases form with
      | block => exact firstViolation_of_inner (.block hform) h ih
      | read => exact absurd (.leaf (.read hform (hhas _ rfl))) h
      | declare => exact absurd (.leaf (.declare hform (hhas _ rfl))) h
      | label => exact absurd (.leaf (.label hform (hhas _ rfl))) h
      | goto => exact absurd (.leaf (.goto hform (hhas _ rfl))) h
      | text => exact absurd (.leaf (.text hform (hhas _ rfl))) h
      | number =>
        obtain ⟨raw, hvalue⟩ := Option.ne_none_iff_exists'.1 (hhas _ rfl)
        by_cases hread : Numeral.read? (String.ofList (trimmed raw.toList)) = none
        · exact ⟨_, .badNumber hform hvalue hread⟩
        · exact absurd (.leaf (.number hform hvalue hread)) h
      | store =>
        by_cases hcount : tree.children.length = 1
        · exact firstViolation_of_inner (.store hform (hhas _ rfl) hcount) h ih
        · exact ⟨_, .notOne hform (.inl rfl) (hhas _ rfl) hcount⟩
      | function =>
        by_cases hcount : tree.children.length = 1
        · exact firstViolation_of_inner (.function hform (hhas _ rfl) hcount) h ih
        · exact ⟨_, .notOne hform (.inr rfl) (hhas _ rfl) hcount⟩
      | branch =>
        by_cases hcount : tree.children.length = 2 ∨ tree.children.length = 3
        · exact firstViolation_of_inner (.branch hform hcount) h ih
        · have hcounts := not_or.1 hcount
          exact ⟨_, .notTwoOrThree hform hcounts.1 hcounts.2⟩
      | call =>
        by_cases hcallee : tree.attribute? "fun" ≠ none ∨ tree.children ≠ []
        · exact firstViolation_of_inner (.call hform hcallee) h ih
        · have hnothing := not_or.1 hcallee
          exact ⟨_, .noCallee hform (not_not.1 hnothing.1) (not_not.1 hnothing.2)⟩

end Tree

section Compiling

variable {scope : Scope} {tree : Tree}

theorem sequence_eq_error (before : List Code) (e : Error) (after : List (Except Error Code)) :
    sequence (before.map .ok ++ .error e :: after) = .error e := by
  induction before with
  | nil => rfl
  | cons code before ih => simp [sequence, bind, Except.bind, ih]

theorem exists_codes {trees : List Tree}
    (h : ∀ tree ∈ trees, ∃ code, compile scope tree = .ok code) :
    ∃ codes : List Code, trees.map (compile scope) = codes.map .ok := by
  induction trees with
  | nil => exact ⟨[], rfl⟩
  | cons tree trees ih =>
    obtain ⟨code, hcode⟩ := h tree (by simp)
    obtain ⟨codes, hcodes⟩ := ih fun t ht => h t (by simp [ht])
    exact ⟨code :: codes, by simp [hcode, hcodes]⟩

/-- Compilation goes by the form, if the tag spells one. -/
theorem compile_of_form {form : Tag} (hform : tree.form? = some form) :
    compile scope tree =
      assemble scope form.spelling tree.attributes (tree.children.map (compile scope)) := by
  rw [compile_eq, Tag.spelling_of_ofSpelling? hform]

theorem exists_attribute {key : String} (h : tree.attribute? key ≠ none) :
    ∃ value, ∀ form : Tag, tree.attributes.require form key = .ok value := by
  obtain ⟨value, hvalue⟩ := Option.ne_none_iff_exists'.1 h
  have hget : tree.attributes.get? key = some value := hvalue
  exact ⟨value, fun form => by simp [Attributes.require, hget]⟩

theorem compile_ok_of_leaf (h : tree.Leaf) : ∃ code, compile scope tree = .ok code := by
  cases h with
  | read hform hname | declare hform hname | label hform hname | goto hform hname
  | text hform hname =>
    obtain ⟨value, hvalue⟩ := exists_attribute hname
    rw [compile_of_form hform]
    simp [assemble, hvalue, bind, Except.bind, pure, Except.pure]
  | number hform hvalue hread =>
    rename_i raw
    have hget : tree.attributes.get? "value" = some raw := hvalue
    obtain ⟨x, hx⟩ := Option.ne_none_iff_exists'.1 hread
    rw [compile_of_form hform]
    simp [assemble, Attributes.require, hget, literal, hx, bind, Except.bind, pure, Except.pure]

/-- Children that compile make a form that compiles. -/
theorem compile_ok_of_inner (h : tree.Inner) {codes : List Code}
    (hcodes : tree.children.map (compile scope) = codes.map .ok)
    (hlabels : tree.form? = some .block → (Block.labels codes).Nodup) :
    ∃ code, compile scope tree = .ok code := by
  have hlength : tree.children.length = codes.length := by
    simpa using congrArg List.length hcodes
  have hsequence := sequence_eq_ok_iff.2 hcodes
  cases h with
  | block hform =>
    have hmake := Block.repeatedLabel?_eq_none_iff.2 (hlabels hform)
    rw [compile_of_form hform]
    simp [assemble, hsequence, Block.make, hmake, bind, Except.bind]
  | store hform hname hcount | function hform hname hcount =>
    obtain ⟨name, hname⟩ := exists_attribute hname
    obtain ⟨code, rfl⟩ := List.length_eq_one_iff.1 (hlength ▸ hcount)
    rw [compile_of_form hform, hcodes]
    simp [assemble, hname, bind, Except.bind, pure, Except.pure]
  | branch hform hcount =>
    rw [compile_of_form hform, hcodes]
    rcases hcount with hcount | hcount
    · obtain ⟨test, yes, rfl⟩ := List.length_eq_two.1 (hlength ▸ hcount)
      simp [assemble, bind, Except.bind, pure, Except.pure]
    · obtain ⟨test, yes, no, rfl⟩ := List.length_eq_three.1 (hlength ▸ hcount)
      simp [assemble, bind, Except.bind, pure, Except.pure]
  | call hform hcallee =>
    rw [compile_of_form hform]
    cases hfun : tree.attributes.get? "fun" with
    | some name => simp [assemble, hfun, hsequence, bind, Except.bind, pure, Except.pure]
    | none =>
      have hne : codes ≠ [] := by
        rintro rfl
        rcases hcallee with hfun' | hne
        · exact hfun' hfun
        · exact hne (List.length_eq_zero_iff.1 hlength)
      obtain ⟨callee, args, rfl⟩ := List.exists_cons_of_ne_nil hne
      have hargs : sequence (args.map .ok) = .ok args := sequence_eq_ok_iff.2 rfl
      rw [hcodes]
      simp [assemble, hfun, hargs, bind, Except.bind, pure, Except.pure]

/-- The first error among the children is the error of the form. -/
theorem compile_error_of_inner (h : tree.Inner) {e : Error}
    (hsequence : sequence (tree.children.map (compile scope)) = .error e) :
    compile scope tree = .error e := by
  have hlength : (tree.children.map (compile scope)).length = tree.children.length := by simp
  generalize hparts : tree.children.map (compile scope) = parts at hsequence hlength
  cases h with
  | block hform =>
    rw [compile_of_form hform, hparts]
    simp [assemble, hsequence, bind, Except.bind]
  | store hform hname hcount | function hform hname hcount =>
    obtain ⟨name, hname⟩ := exists_attribute hname
    obtain ⟨part, rfl⟩ := List.length_eq_one_iff.1 (hlength.trans hcount)
    rw [compile_of_form hform, hparts]
    cases part <;> simp_all [assemble, sequence, bind, Except.bind, pure, Except.pure]
  | branch hform hcount =>
    rw [compile_of_form hform, hparts]
    rcases hcount with hcount | hcount
    · obtain ⟨test, yes, rfl⟩ := List.length_eq_two.1 (hlength.trans hcount)
      cases test <;> cases yes <;>
        simp_all [assemble, sequence, bind, Except.bind, pure, Except.pure]
    · obtain ⟨test, yes, no, rfl⟩ := List.length_eq_three.1 (hlength.trans hcount)
      cases test <;> cases yes <;> cases no <;>
        simp_all [assemble, sequence, bind, Except.bind, pure, Except.pure]
  | call hform hcallee =>
    rw [compile_of_form hform, hparts]
    cases hfun : tree.attributes.get? "fun" with
    | some name => simp [assemble, hfun, hsequence, bind, Except.bind]
    | none =>
      cases parts with
      | nil => cases hsequence
      | cons callee args =>
        cases callee <;> cases hargs : sequence args <;>
          simp_all [assemble, sequence, bind, Except.bind, pure, Except.pure]

theorem exists_ok_of_wellFormed (h : tree.WellFormed scope.policy) :
    ∃ code, compile scope tree = .ok code := by
  induction h with
  | unknown hform hpolicy => exact ⟨_, compile_ignored hform hpolicy⟩
  | leaf h => exact compile_ok_of_leaf h
  | inner h hchildren hlabels ih =>
    obtain ⟨codes, hcodes⟩ := exists_codes ih
    refine compile_ok_of_inner h hcodes ?_
    intro hform
    rw [labels_of_compile hcodes]
    exact hlabels hform

theorem error_of_firstViolation {cause : Malformed}
    (h : tree.FirstViolation scope.policy cause) :
    compile scope tree = .error (.malformed cause) := by
  induction h with
  | unknown hform hpolicy =>
    rename_i tree
    have htag : Tag.ofSpelling? tree.tag = none := hform
    rw [compile_eq]
    simp [assemble, htag, hpolicy]
  | missing hform hkey hmissing =>
    rename_i tree form key
    have hget : tree.attributes.get? key = none := hmissing
    rw [compile_of_form hform]
    cases form <;> cases hkey <;>
      simp [assemble, Attributes.require, hget, bind, Except.bind]
  | badNumber hform hvalue hread =>
    rename_i tree raw
    have hget : tree.attributes.get? "value" = some raw := hvalue
    rw [compile_of_form hform]
    simp [assemble, Attributes.require, hget, literal, hread, bind, Except.bind]
  | notOne hform hone hname hcount =>
    rename_i tree form
    obtain ⟨name, hname⟩ := exists_attribute hname
    have hlength : (tree.children.map (compile scope)).length = tree.children.length := by simp
    rw [compile_of_form hform]
    generalize tree.children.map (compile scope) = parts at hlength
    rw [← hlength] at hcount ⊢
    rcases parts with _ | ⟨part, _ | ⟨next, rest⟩⟩
    · rcases hone with rfl | rfl <;> simp [assemble, hname, bind, Except.bind]
    · exact absurd rfl hcount
    · rcases hone with rfl | rfl <;> simp [assemble, hname, bind, Except.bind]
  | notTwoOrThree hform htwo hthree =>
    rename_i tree
    have hlength : (tree.children.map (compile scope)).length = tree.children.length := by simp
    rw [compile_of_form hform]
    generalize tree.children.map (compile scope) = parts at hlength
    rw [← hlength] at htwo hthree ⊢
    rcases parts with _ | ⟨test, _ | ⟨yes, _ | ⟨no, _ | ⟨next, rest⟩⟩⟩⟩
    · simp [assemble]
    · simp [assemble]
    · exact absurd rfl htwo
    · exact absurd rfl hthree
    · simp [assemble]
  | noCallee hform hfun hchildren =>
    rename_i tree
    have hget : tree.attributes.get? "fun" = none := hfun
    rw [compile_of_form hform, hchildren]
    simp [assemble, hget]
  | child h hchildren hbefore hchild ih =>
    obtain ⟨codes, hcodes⟩ := exists_codes fun t ht => exists_ok_of_wellFormed (hbefore t ht)
    refine compile_error_of_inner h ?_
    rw [hchildren, List.map_append, List.map_cons, hcodes, ih]
    exact sequence_eq_error codes _ _
  | duplicate hform hchildren hrepeats =>
    obtain ⟨codes, hcodes⟩ := exists_codes fun t ht => exists_ok_of_wellFormed (hchildren t ht)
    rw [← labels_of_compile hcodes] at hrepeats
    have hmake := Block.repeatedLabel?_eq_some_iff.2 hrepeats
    rw [compile_of_form hform]
    simp [assemble, sequence_eq_ok_iff.2 hcodes, Block.make, hmake, bind, Except.bind]

end Compiling

/-- Compilation accepts the grammar and nothing else, whatever the globals. A tree that
is not well formed has a first violation, and fails with it as the cause, without notes. -/
theorem compile_decides_grammar (scope : Scope) (tree : Tree) :
    ((∃ code, compile scope tree = .ok code) ↔ tree.WellFormed scope.policy) ∧
    (∀ e, compile scope tree = .error e ↔
      ∃ cause, tree.FirstViolation scope.policy cause ∧ e = ⟨.malformedTree cause, #[]⟩) ∧
    (¬ tree.WellFormed scope.policy ↔ ∃ cause, tree.FirstViolation scope.policy cause) := by
  have hviolation : ¬ tree.WellFormed scope.policy →
      ∃ cause, tree.FirstViolation scope.policy cause := Tree.exists_firstViolation
  refine ⟨⟨?_, exists_ok_of_wellFormed⟩, ?_, ⟨hviolation, ?_⟩⟩
  · rintro ⟨code, hcode⟩
    by_contra h
    obtain ⟨cause, hcause⟩ := hviolation h
    rw [error_of_firstViolation hcause] at hcode
    cases hcode
  · intro e
    constructor
    · intro he
      have hmalformed : ¬ tree.WellFormed scope.policy := by
        intro h
        obtain ⟨code, hcode⟩ := exists_ok_of_wellFormed h
        rw [hcode] at he
        cases he
      obtain ⟨cause, hcause⟩ := hviolation hmalformed
      rw [error_of_firstViolation hcause] at he
      exact ⟨cause, hcause, (Except.error.inj he).symm⟩
    · rintro ⟨cause, hcause, rfl⟩
      exact error_of_firstViolation hcause
  · rintro ⟨cause, hcause⟩ h
    obtain ⟨code, hcode⟩ := exists_ok_of_wellFormed h
    rw [error_of_firstViolation hcause] at hcode
    cases hcode

end Treewalk
