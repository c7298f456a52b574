import Treewalk.Code.Compile

/-!
What compilation can give. A tree that compiles does so in the way of its form,
and from its children as far as its form looks at them; a tree that does not
compile fails with a violation of its own or with one of its children's.
-/
namespace Treewalk

/-- Induction over trees, with the hypothesis for every child. -/
theorem Tree.induction {motive : Tree → Prop}
    (h : ∀ tree : Tree, (∀ child ∈ tree.children, motive child) → motive tree) (tree : Tree) :
    motive tree :=
  h tree fun child _hchild => Tree.induction h child
termination_by sizeOf tree
decreasing_by
  have hlt := List.sizeOf_lt_of_mem _hchild
  cases tree
  simp only [Tree.mk.sizeOf_spec] at hlt ⊢
  omega

theorem exists_of_bind_eq_ok {α β : Type} {x : Except Error α} {f : α → Except Error β} {b : β}
    (h : x >>= f = .ok b) : ∃ a, x = .ok a ∧ f a = .ok b := by
  cases x with
  | error e => cases h
  | ok a => exact ⟨a, rfl, h⟩

theorem bind_eq_error {α β : Type} {x : Except Error α} {f : α → Except Error β} {e : Error}
    (h : x >>= f = .error e) : x = .error e ∨ ∃ a, x = .ok a ∧ f a = .error e := by
  cases x with
  | error e' =>
    cases h
    exact .inl rfl
  | ok a => exact .inr ⟨a, rfl, h⟩

theorem sequence_eq_ok_iff {parts : List (Except Error Code)} {codes : List Code} :
    sequence parts = .ok codes ↔ parts = codes.map .ok := by
  induction parts generalizing codes with
  | nil => cases codes <;> simp [sequence]
  | cons part parts ih =>
    cases part with
    | error e => cases codes <;> simp [sequence, bind, Except.bind]
    | ok code =>
      cases hparts : sequence parts with
      | error e =>
        have hne : ∀ codes : List Code, parts ≠ codes.map .ok := fun codes heq => by
          rw [ih.2 heq] at hparts
          cases hparts
        cases codes <;> simp [sequence, bind, Except.bind, hparts, hne]
      | ok rest =>
        have heq := ih.1 hparts
        cases codes with
        | nil => simp [sequence, bind, Except.bind, hparts, pure, Except.pure]
        | cons first codes =>
          have hinj : rest = codes ↔ parts = codes.map .ok := by
            rw [← ih, hparts]
            simp
          simp [sequence, bind, Except.bind, hparts, pure, Except.pure, hinj]

theorem error_mem_of_sequence {parts : List (Except Error Code)} {e : Error}
    (h : sequence parts = .error e) : .error e ∈ parts := by
  induction parts with
  | nil => cases h
  | cons part parts ih =>
    cases part with
    | error e' =>
      cases h
      simp
    | ok code =>
      cases hparts : sequence parts with
      | error e' =>
        simp only [sequence, bind, Except.bind, hparts] at h
        cases h
        exact List.mem_cons_of_mem _ (ih hparts)
      | ok codes =>
        simp only [sequence, bind, Except.bind, hparts] at h
        cases h

theorem get?_of_require {attributes : Attributes} {form : Tag} {key value : String}
    (h : attributes.require form key = .ok value) : attributes.get? key = some value := by
  unfold Attributes.require at h
  split at h
  · next v hget =>
    cases h
    exact hget
  · cases h

/-- The ways a tree compiles, one for each form, and two for branches and calls. -/
inductive Compiled (scope : Scope) (tree : Tree) : Code → Prop
  | ignored (hform : tree.form? = none) (hpolicy : scope.policy = .ignore) :
      Compiled scope tree (.const .absent)
  | block {codes : List Code} (hform : tree.form? = some .block)
      (hcodes : tree.children.map (compile scope) = codes.map .ok)
      (hlabels : Block.repeatedLabel? codes = none) : Compiled scope tree (.block codes)
  | read {name : Name} (hform : tree.form? = some .read)
      (hname : tree.attribute? "name" = some name) : Compiled scope tree (.var name)
  | declare {name : Name} (hform : tree.form? = some .declare)
      (hname : tree.attribute? "name" = some name) : Compiled scope tree (.define name)
  | label {name : Name} (hform : tree.form? = some .label)
      (hname : tree.attribute? "name" = some name) : Compiled scope tree (.label name)
  | goto {name : Name} (hform : tree.form? = some .goto)
      (hname : tree.attribute? "label" = some name) : Compiled scope tree (.goto name)
  | store {name : Name} {child : Tree} {expr : Code} (hform : tree.form? = some .store)
      (hname : tree.attribute? "name" = some name) (hchildren : tree.children = [child])
      (hexpr : compile scope child = .ok expr) : Compiled scope tree (.assign name expr)
  | number {raw : String} {x : Float} (hform : tree.form? = some .number)
      (hvalue : tree.attribute? "value" = some raw) (hliteral : literal raw = .ok x) :
      Compiled scope tree (.const (.number x))
  | text {s : String} (hform : tree.form? = some .text)
      (hvalue : tree.attribute? "value" = some s) : Compiled scope tree (.const (.text s))
  | when {test body : Tree} {n m : Code} (hform : tree.form? = some .branch)
      (hchildren : tree.children = [test, body]) (htest : compile scope test = .ok n)
      (hbody : compile scope body = .ok m) : Compiled scope tree (.when n m)
  | choose {test yes no : Tree} {n m k : Code} (hform : tree.form? = some .branch)
      (hchildren : tree.children = [test, yes, no]) (htest : compile scope test = .ok n)
      (hyes : compile scope yes = .ok m) (hno : compile scope no = .ok k) :
      Compiled scope tree (.choose n m k)
  | function {name : Name} {child : Tree} {body : Code} (hform : tree.form? = some .function)
      (hname : tree.attribute? "name" = some name) (hchildren : tree.children = [child])
      (hbody : compile scope child = .ok body) :
      Compiled scope tree
        (.definition name (parameters ((tree.attribute? "args").getD "")) body)
  | callName {name : Name} {args : List Code} (hform : tree.form? = some .call)
      (hfun : tree.attribute? "fun" = some name)
      (hargs : tree.children.map (compile scope) = args.map .ok) :
      Compiled scope tree (.call (.const (scope.target name)) args)
  | call {callee : Tree} {rest : List Tree} {n : Code} {args : List Code}
      (hform : tree.form? = some .call) (hfun : tree.attribute? "fun" = none)
      (hchildren : tree.children = callee :: rest) (hcallee : compile scope callee = .ok n)
      (hargs : rest.map (compile scope) = args.map .ok) : Compiled scope tree (.call n args)

theorem compiled_of_compile {scope : Scope} {tree : Tree} {code : Code}
    (h : compile scope tree = .ok code) : Compiled scope tree code := by
  rw [compile_eq] at h
  cases hform : tree.form? with
  | none =>
    simp only [assemble, show Tag.ofSpelling? tree.tag = none from hform] at h
    split at h
    · cases h
    · next hpolicy =>
      cases h
      exact .ignored hform hpolicy
  | some form =>
    simp only [assemble, show Tag.ofSpelling? tree.tag = some form from hform] at h
    cases form with
    | block =>
      obtain ⟨codes, hcodes, h⟩ := exists_of_bind_eq_ok h
      unfold Block.make at h
      split at h
      · cases h
      · next hlabels =>
        cases h
        exact .block hform (sequence_eq_ok_iff.1 hcodes) hlabels
    | read =>
      obtain ⟨name, hname, h⟩ := exists_of_bind_eq_ok h
      cases h
      exact .read hform (get?_of_require hname)
    | declare =>
      obtain ⟨name, hname, h⟩ := exists_of_bind_eq_ok h
      cases h
      exact .declare hform (get?_of_require hname)
    | label =>
      obtain ⟨name, hname, h⟩ := exists_of_bind_eq_ok h
      cases h
      exact .label hform (get?_of_require hname)
    | goto =>
      obtain ⟨name, hname, h⟩ := exists_of_bind_eq_ok h
      cases h
      exact .goto hform (get?_of_require hname)
    | store =>
      obtain ⟨name, hname, h⟩ := exists_of_bind_eq_ok h
      split at h
      · next part hparts =>
        obtain ⟨child, hchildren, rfl⟩ := List.map_eq_singleton_iff.1 hparts
        obtain ⟨expr, hexpr, h⟩ := exists_of_bind_eq_ok h
        cases h
        exact .store hform (get?_of_require hname) hchildren hexpr
      · cases h
    | number =>
      obtain ⟨raw, hraw, h⟩ := exists_of_bind_eq_ok h
      obtain ⟨x, hx, h⟩ := exists_of_bind_eq_ok h
      cases h
      exact .number hform (get?_of_require hraw) hx
    | text =>
      obtain ⟨s, hs, h⟩ := exists_of_bind_eq_ok h
      cases h
      exact .text hform (get?_of_require hs)
    | branch =>
      dsimp only at h
      split at h
      · next x y hparts =>
        obtain ⟨test, rest, hchildren, rfl, hrest⟩ := List.map_eq_cons_iff.1 hparts
        obtain ⟨body, rfl, rfl⟩ := List.map_eq_singleton_iff.1 hrest
        obtain ⟨n, htest, h⟩ := exists_of_bind_eq_ok h
        obtain ⟨m, hbody, h⟩ := exists_of_bind_eq_ok h
        cases h
        exact .when hform hchildren htest hbody
      · next x y z hparts =>
        obtain ⟨test, rest, hchildren, rfl, hrest⟩ := List.map_eq_cons_iff.1 hparts
        obtain ⟨yes, last, rfl, rfl, hlast⟩ := List.map_eq_cons_iff.1 hrest
        obtain ⟨no, rfl, rfl⟩ := List.map_eq_singleton_iff.1 hlast
        obtain ⟨n, htest, h⟩ := exists_of_bind_eq_ok h
        obtain ⟨m, hyes, h⟩ := exists_of_bind_eq_ok h
        obtain ⟨k, hno, h⟩ := exists_of_bind_eq_ok h
        cases h
        exact .choose hform hchildren htest hyes hno
      · cases h
    | function =>
      obtain ⟨name, hname, h⟩ := exists_of_bind_eq_ok h
      split at h
      · next part hparts =>
        obtain ⟨child, hchildren, rfl⟩ := List.map_eq_singleton_iff.1 hparts
        obtain ⟨body, hbody, h⟩ := exists_of_bind_eq_ok h
        cases h
        exact .function hform (get?_of_require hname) hchildren hbody
      · cases h
    | call =>
      dsimp only at h
      split at h
      · next name hfun =>
        obtain ⟨args, hargs, h⟩ := exists_of_bind_eq_ok h
        cases h
        exact .callName hform hfun (sequence_eq_ok_iff.1 hargs)
      · next hfun =>
        split at h
        · next x parts hparts =>
          obtain ⟨callee, rest, hchildren, rfl, rfl⟩ := List.map_eq_cons_iff.1 hparts
          obtain ⟨n, hcallee, h⟩ := exists_of_bind_eq_ok h
          obtain ⟨args, hargs, h⟩ := exists_of_bind_eq_ok h
          cases h
          exact .call hform hfun hchildren hcallee (sequence_eq_ok_iff.1 hargs)
        · cases h

/-- Below a tag that is ignored nothing is looked at. -/
theorem compile_ignored {scope : Scope} {tree : Tree} (hform : tree.form? = none)
    (hpolicy : scope.policy = .ignore) : compile scope tree = .ok (.const .absent) := by
  have htag : Tag.ofSpelling? tree.tag = none := hform
  rw [compile_eq]
  simp only [assemble, htag, hpolicy]

def Tree.label? (tree : Tree) : Option Name :=
  if tree.form? = some .label then tree.attribute? "name" else none

def Tree.target? (tree : Tree) : Option Name :=
  if tree.form? = some .goto then tree.attribute? "label" else none

theorem label?_of_compile {scope : Scope} {tree : Tree} {code : Code}
    (h : compile scope tree = .ok code) : code.label? = tree.label? := by
  cases compiled_of_compile h <;> simp_all [Code.label?, Tree.label?]

theorem labels_of_compile {scope : Scope} {trees : List Tree} {codes : List Code}
    (h : trees.map (compile scope) = codes.map .ok) :
    Block.labels codes = trees.filterMap Tree.label? := by
  induction trees generalizing codes with
  | nil =>
    cases codes with
    | nil => rfl
    | cons code codes => cases h
  | cons tree trees ih =>
    cases codes with
    | nil => cases h
    | cons code codes =>
      obtain ⟨hcode, hcodes⟩ := List.cons.inj h
      have hrest := ih hcodes
      unfold Block.labels at hrest ⊢
      rw [List.filterMap_cons, List.filterMap_cons, label?_of_compile hcode, hrest]

theorem exists_of_mem_compiled {scope : Scope} {trees : List Tree} {codes : List Code}
    (h : trees.map (compile scope) = codes.map .ok) {code : Code} (hcode : code ∈ codes) :
    ∃ tree ∈ trees, compile scope tree = .ok code := by
  have hmem : Except.ok code ∈ trees.map (compile scope) := by
    rw [h]
    exact List.mem_map_of_mem hcode
  exact List.mem_map.1 hmem

/-- A failure of compilation is malformed in a way that no jump is. -/
def Error.IsViolation (e : Error) : Prop :=
  ∃ cause, e = .malformed cause ∧ ∀ label, cause ≠ .unresolvedGoto label

theorem isViolation_of_require {attributes : Attributes} {form : Tag} {key : String} {e : Error}
    (h : attributes.require form key = .error e) : e.IsViolation := by
  unfold Attributes.require at h
  split at h
  · cases h
  · cases h
    exact ⟨_, rfl, fun label heq => by cases heq⟩

theorem isViolation_of_literal {raw : String} {e : Error} (h : literal raw = .error e) :
    e.IsViolation := by
  unfold literal at h
  split at h
  · cases h
  · cases h
    exact ⟨_, rfl, fun label heq => by cases heq⟩

theorem isViolation_of_make {codes : List Code} {e : Error} (h : Block.make codes = .error e) :
    e.IsViolation := by
  unfold Block.make at h
  split at h
  · cases h
    exact ⟨_, rfl, fun label heq => by cases heq⟩
  · cases h

theorem isViolation_of_wrongCount {form : Tag} {expected : String} {got : Nat} {e : Error}
    (h : (.error (.malformed (.wrongChildCount form expected got)) : Except Error Code) =
      .error e) : e.IsViolation := by
  cases h
  exact ⟨_, rfl, fun label heq => by cases heq⟩

/-- Putting a tree together fails with a violation if its parts do. -/
theorem isViolation_of_assemble {scope : Scope} {tag : String} {attributes : Attributes}
    {parts : List (Except Error Code)} (hparts : ∀ e, .error e ∈ parts → e.IsViolation)
    {e : Error} (h : assemble scope tag attributes parts = .error e) : e.IsViolation := by
  have hsequence : ∀ e, sequence parts = .error e → e.IsViolation :=
    fun e he => hparts e (error_mem_of_sequence he)
  cases hform : Tag.ofSpelling? tag with
  | none =>
    simp only [assemble, hform] at h
    split at h
    · cases h
      exact ⟨_, rfl, fun label heq => by cases heq⟩
    · cases h
  | some form =>
    simp only [assemble, hform] at h
    cases form with
    | block =>
      rcases bind_eq_error h with h | ⟨codes, -, h⟩
      · exact hsequence e h
      · exact isViolation_of_make h
    | read | declare | label | goto | text =>
      rcases bind_eq_error h with h | ⟨name, -, h⟩
      · exact isViolation_of_require h
      · cases h
    | store =>
      rcases bind_eq_error h with h | ⟨name, -, h⟩
      · exact isViolation_of_require h
      · split at h
        · rcases bind_eq_error h with h | ⟨expr, -, h⟩
          · exact hparts e (by simp [h])
          · cases h
        · exact isViolation_of_wrongCount h
    | number =>
      rcases bind_eq_error h with h | ⟨raw, -, h⟩
      · exact isViolation_of_require h
      · rcases bind_eq_error h with h | ⟨x, -, h⟩
        · exact isViolation_of_literal h
        · cases h
    | branch =>
      dsimp only at h
      split at h
      · rcases bind_eq_error h with h | ⟨n, -, h⟩
        · exact hparts e (by simp [h])
        · rcases bind_eq_error h with h | ⟨m, -, h⟩
          · exact hparts e (by simp [h])
          · cases h
      · rcases bind_eq_error h with h | ⟨n, -, h⟩
        · exact hparts e (by simp [h])
        · rcases bind_eq_error h with h | ⟨m, -, h⟩
          · exact hparts e (by simp [h])
          · rcases bind_eq_error h with h | ⟨k, -, h⟩
            · exact hparts e (by simp [h])
            · cases h
      · exact isViolation_of_wrongCount h
    | function =>
      rcases bind_eq_error h with h | ⟨name, -, h⟩
      · exact isViolation_of_require h
      · split at h
        · rcases bind_eq_error h with h | ⟨body, -, h⟩
          · exact hparts e (by simp [h])
          · cases h
        · exact isViolation_of_wrongCount h
    | call =>
      dsimp only at h
      split at h
      · rcases bind_eq_error h with h | ⟨args, -, h⟩
        · exact hsequence e h
        · cases h
      · split at h
        · rcases bind_eq_error h with h | ⟨n, -, h⟩
          · exact hparts e (by simp [h])
          · rcases bind_eq_error h with h | ⟨args, -, h⟩
            · exact hparts e (List.mem_cons_of_mem _ (error_mem_of_sequence h))
            · cases h
        · exact isViolation_of_wrongCount h

theorem isViolation_of_compile {scope : Scope} {tree : Tree} {e : Error}
    (h : compile scope tree = .error e) : e.IsViolation := by
  induction tree using Tree.induction generalizing e with
  | h tree ih =>
    rw [compile_eq] at h
    refine isViolation_of_assemble ?_ h
    intro e' he'
    obtain ⟨child, hchild, herror⟩ := List.mem_map.1 he'
    exact ih child hchild herror

end Treewalk
