import Treewalk.Proofs.Endings
import Treewalk.Proofs.Labels
import Treewalk.Proofs.Natives
import Treewalk.Proofs.Programs
import Treewalk.Proofs.StockNatives
import Treewalk.Proofs.Trees

/-!
Programs that end. If every call is by name, and every jump goes forward in the
innermost block around it that declares its label, then the program ends. A call by
name holds its target as a constant, so the functions that code can call are smaller
than the code; and a block that jumps forward has fewer children left after each
step. So the size of the code is enough fuel for it.
-/
namespace Treewalk

variable {η : Type}

namespace Tree

def callsNamed (tree : Tree) : Bool :=
  tree.form? != some .call || (tree.attribute? "fun").isSome

/-- The labels ahead of the children of a tree beside those of later siblings, if `ahead`
are those ahead of the tree itself. The labels of a block hide labels around it, and
nothing around a function is ahead of its body. -/
def outward (ahead : List Name) (tree : Tree) : List Name :=
  match tree.form? with
  | some .block => ahead.filter fun label => label ∉ tree.children.filterMap label?
  | some .function => []
  | _ => ahead

/-- The labels that siblings declare for what stands before them, in a block. -/
def declared (form : Option Tag) (later : List Tree) : List Name :=
  if form = some .block then later.filterMap label? else []

mutual

/-- Every jump in the tree goes to one of the labels `ahead`, or to a later child of the
innermost block around it, in the same function body, that declares its label. -/
def jumpsForward (ahead : List Name) : Tree → Bool
  | ⟨tag, attributes, children⟩ =>
    (target? ⟨tag, attributes, children⟩).all (fun label => ahead.contains label) &&
      eachForward (Tag.ofSpelling? tag) (outward ahead ⟨tag, attributes, children⟩) children

def eachForward (form : Option Tag) (outer : List Name) : List Tree → Bool
  | [] => true
  | tree :: later =>
    tree.jumpsForward (declared form later ++ outer) && eachForward form outer later

end

theorem eachForward_iff {form : Option Tag} {outer : List Name} {trees : List Tree} :
    eachForward form outer trees ↔ ∀ earlier tree later, trees = earlier ++ tree :: later →
      tree.jumpsForward (declared form later ++ outer) := by
  induction trees with
  | nil => simp [eachForward]
  | cons first rest ih =>
    rw [eachForward, Bool.and_eq_true, ih]
    constructor
    · rintro ⟨hfirst, hrest⟩ earlier tree later heq
      cases earlier with
      | nil =>
        obtain ⟨rfl, rfl⟩ := List.cons.inj heq
        exact hfirst
      | cons _ earlier =>
        obtain ⟨rfl, htail⟩ := List.cons.inj heq
        exact hrest earlier tree later htail
    · intro h
      refine ⟨h [] first rest rfl, ?_⟩
      rintro earlier tree later rfl
      exact h (first :: earlier) tree later rfl

theorem jumpsForward_iff {ahead : List Name} {tree : Tree} :
    tree.jumpsForward ahead ↔ (∀ label, tree.target? = some label → label ∈ ahead) ∧
      ∀ earlier child later, tree.children = earlier ++ child :: later →
        child.jumpsForward (declared tree.form? later ++ tree.outward ahead) := by
  obtain ⟨tag, attributes, children⟩ := tree
  rw [jumpsForward, Bool.and_eq_true, eachForward_iff]
  refine and_congr_left' ?_
  cases target? ⟨tag, attributes, children⟩ <;> simp

end Tree

/-- Code that calls constants only and jumps forward only, with `ahead` the labels ahead
of it, and so does every function that it holds or defines. -/
inductive Code.Onward : List Name → Code → Prop
  | data {ahead : List Name} {v : Value} (h : ¬ v.IsFunction) : Onward ahead (.const v)
  | function {ahead : List Name} {id : Nat} {name : Name} {params : List Name} {body : Code}
      (h : Onward [] body) : Onward ahead (.const (.function id name params body))
  | var {ahead : List Name} (name : Name) : Onward ahead (.var name)
  | define {ahead : List Name} (name : Name) : Onward ahead (.define name)
  | assign {ahead : List Name} {name : Name} {expr : Code} (h : Onward ahead expr) :
      Onward ahead (.assign name expr)
  | label {ahead : List Name} (name : Name) : Onward ahead (.label name)
  | goto {ahead : List Name} {label : Name} (h : label ∈ ahead) : Onward ahead (.goto label)
  | block {ahead : List Name} {children : List Code} (hlabels : (Block.labels children).Nodup)
      (h : ∀ earlier child later, children = earlier ++ child :: later →
        Onward (Block.labels later ++ ahead.filter fun label => label ∉ Block.labels children)
          child) : Onward ahead (.block children)
  | when {ahead : List Name} {test body : Code} (htest : Onward ahead test)
      (hbody : Onward ahead body) : Onward ahead (.when test body)
  | choose {ahead : List Name} {test yes no : Code} (htest : Onward ahead test)
      (hyes : Onward ahead yes) (hno : Onward ahead no) : Onward ahead (.choose test yes no)
  | call {ahead : List Name} {v : Value} {args : List Code} (hcallee : Onward ahead (.const v))
      (hargs : ∀ arg ∈ args, Onward ahead arg) : Onward ahead (.call (.const v) args)
  | definition {ahead : List Name} {name : Name} {params : List Name} {body : Code}
      (h : Onward [] body) : Onward ahead (.definition name params body)

def Value.Onward (v : Value) : Prop := (Code.const v).Onward []

theorem Value.Onward.const {v : Value} (h : v.Onward) (ahead : List Name) :
    (Code.const v).Onward ahead := by
  cases h with
  | data h => exact .data h
  | function h => exact .function h

theorem Code.Onward.value {ahead : List Name} {v : Value} (h : (Code.const v).Onward ahead) :
    v.Onward := by
  cases h with
  | data h => exact .data h
  | function h => exact .function h

theorem Value.Onward.body {id : Nat} {name : Name} {params : List Name} {body : Code}
    (h : (Value.function id name params body).Onward) : body.Onward [] := by
  cases h with
  | data h => exact absurd trivial h
  | function h => exact h

theorem Code.Onward.part {ahead : List Name} {n p : Code} (h : n.Onward ahead)
    (hpart : Code.Part p n) : ∃ inner, p.Onward inner := by
  cases hpart with
  | child hmem =>
    obtain ⟨earlier, later, heq⟩ := List.append_of_mem hmem
    cases h with
    | block hlabels h => exact ⟨_, h earlier p later heq⟩
  | expr => cases h with | assign h => exact ⟨_, h⟩
  | whenTest => cases h with | when htest hbody => exact ⟨_, htest⟩
  | whenBody => cases h with | when htest hbody => exact ⟨_, hbody⟩
  | test => cases h with | choose htest hyes hno => exact ⟨_, htest⟩
  | yes => cases h with | choose htest hyes hno => exact ⟨_, hyes⟩
  | no => cases h with | choose htest hyes hno => exact ⟨_, hno⟩
  | callee => cases h with | call hcallee hargs => exact ⟨_, hcallee⟩
  | arg _ hmem => cases h with | call hcallee hargs => exact ⟨_, hargs p hmem⟩

/-- Named calls and forward jumps compile to onward code, if all values called by name
are onward. -/
theorem onward_of_compile {scope : Scope} (htarget : ∀ name, (scope.target name).Onward)
    {tree : Tree} (hcalls : tree.everywhere Tree.callsNamed) {ahead : List Name}
    (hjumps : tree.jumpsForward ahead) {n : Code} (h : compile scope tree = .ok n) :
    n.Onward ahead := by
  induction tree using Tree.induction generalizing ahead n with
  | h tree ih =>
    obtain ⟨hnamed, hcalls⟩ := Tree.everywhere_iff.1 hcalls
    obtain ⟨hjump, hjumps⟩ := Tree.jumpsForward_iff.1 hjumps
    have hchild : ∀ earlier child later m, tree.children = earlier ++ child :: later →
        compile scope child = .ok m →
        m.Onward (Tree.declared tree.form? later ++ tree.outward ahead) := by
      intro earlier child later m heq hm
      have hmem : child ∈ tree.children := by simp [heq]
      exact ih child hmem (hcalls child hmem) (hjumps earlier child later heq) hm
    -- Outside of blocks and functions, the same labels are ahead of all children.
    have hsame : ∀ form, tree.form? = some form → form ≠ .block → form ≠ .function →
        ∀ child ∈ tree.children, ∀ m, compile scope child = .ok m → m.Onward ahead := by
      intro form hform hblock hfunction child hmem m hm
      obtain ⟨earlier, later, heq⟩ := List.append_of_mem hmem
      have honward := hchild earlier child later m heq hm
      have hdeclared : Tree.declared tree.form? later = [] := by
        simp [Tree.declared, hform, hblock]
      have houtward : tree.outward ahead = ahead := by
        cases form <;> simp_all [Tree.outward]
      rwa [hdeclared, houtward, List.nil_append] at honward
    cases compiled_of_compile h with
    | ignored hform hpolicy => exact .data fun h => h
    | number hform hvalue hliteral => exact .data fun h => h
    | text hform hvalue => exact .data fun h => h
    | read hform hname => exact .var _
    | declare hform hname => exact .define _
    | label hform hname => exact .label _
    | goto hform hname => exact .goto (hjump _ (by simp [Tree.target?, hform, hname]))
    | @block codes hform hcodes hlabels =>
      refine .block (Block.repeatedLabel?_eq_none_iff.1 hlabels) ?_
      rintro earlier child later rfl
      have hall := labels_of_compile hcodes
      rw [List.map_append, List.map_cons] at hcodes
      obtain ⟨before, rest, hchildren, hbefore, hrest⟩ := List.map_eq_append_iff.1 hcodes
      obtain ⟨tree', after, rfl, hcode, hafter⟩ := List.map_eq_cons_iff.1 hrest
      have honward := hchild before tree' after child hchildren hcode
      simpa [Tree.declared, Tree.outward, hform, labels_of_compile hafter, hall] using honward
    | store hform hname hchildren hexpr =>
      exact .assign (hsame _ hform (by simp) (by simp) _ (by simp [hchildren]) _ hexpr)
    | when hform hchildren htest hbody =>
      have hpart := hsame _ hform (by simp) (by simp)
      exact .when (hpart _ (by simp [hchildren]) _ htest) (hpart _ (by simp [hchildren]) _ hbody)
    | choose hform hchildren htest hyes hno =>
      have hpart := hsame _ hform (by simp) (by simp)
      exact .choose (hpart _ (by simp [hchildren]) _ htest)
        (hpart _ (by simp [hchildren]) _ hyes) (hpart _ (by simp [hchildren]) _ hno)
    | function hform hname hchildren hbody =>
      have honward := hchild [] _ [] _ hchildren hbody
      simp only [Tree.declared, Tree.outward, hform] at honward
      exact .definition (by simpa using honward)
    | callName hform hfun hargs =>
      refine .call ((htarget _).const ahead) ?_
      intro arg harg
      obtain ⟨child, hmem, hcode⟩ := exists_of_mem_compiled hargs harg
      exact hsame _ hform (by simp) (by simp) child hmem arg hcode
    | call hform hfun hchildren hcallee hargs =>
      simp [Tree.callsNamed, hform, hfun] at hnamed

namespace Outcome

variable {σ τ α β : Type}

/-- The computation has ended, and if with a jump then to one of the labels. -/
def Finishes (ahead : List Name) : Outcome σ (Flow α) → Prop
  | done (.value _) _ => True
  | done (.jump label) _ => label ∈ ahead
  | failed _ _ => True
  | outOfFuel => False

variable {ahead : List Name}

theorem Finishes.onValue {o : Outcome σ (Flow α)} {k : α → σ → Outcome σ (Flow β)}
    (h : o.Finishes ahead) (hk : ∀ a s, (k a s).Finishes ahead) :
    (o.onValue k).Finishes ahead := by
  cases o with
  | done flow s =>
    cases flow with
    | value a => exact hk a s
    | jump label => exact h
  | failed e s => trivial
  | outOfFuel => exact h

theorem Finishes.mapState {o : Outcome σ (Flow α)} (h : o.Finishes ahead) (f : σ → τ) :
    (o.mapState f).Finishes ahead := by
  cases o with
  | done flow s => cases flow <;> exact h
  | failed e s => trivial
  | outOfFuel => exact h

theorem Finishes.mapError {o : Outcome σ (Flow α)} (h : o.Finishes ahead) (f : Error → Error) :
    (o.mapError f).Finishes ahead := by
  cases o with
  | done flow s => exact h
  | failed e s => trivial
  | outOfFuel => exact h

theorem Finishes.mono {ahead' : List Name} {o : Outcome σ (Flow α)} (h : o.Finishes ahead)
    (hahead : ∀ label ∈ ahead, label ∈ ahead') : o.Finishes ahead' := by
  cases o with
  | done flow s =>
    cases flow with
    | value a => trivial
    | jump label => exact hahead label h
  | failed e s => trivial
  | outOfFuel => exact h

end Outcome

section Parts

variable {σ : Type} {runner : Runner σ} {ahead : List Name}

/-- A block whose jumps go forward finishes: each step leaves fewer children. -/
theorem runBlock_finishes {children : List Code} (hlabels : (Block.labels children).Nodup)
    (hchildren : ∀ earlier child later, children = earlier ++ child :: later → ∀ s,
      (runner child s).Finishes
        (Block.labels later ++ ahead.filter fun label => label ∉ Block.labels children))
    {fuel : Nat} {earlier rest : List Code} (hsplit : children = earlier ++ rest)
    (hfuel : rest.length < fuel) (last : Value) (s : σ) :
    (runBlock runner children fuel rest last s).Finishes ahead := by
  -- What is left to run is always the end of the block after some `earlier` children.
  induction fuel generalizing earlier rest last s with
  | zero => omega
  | succ fuel ih =>
    cases rest with
    | nil => trivial
    | cons child rest =>
      have hchild := hchildren earlier child rest hsplit s
      have hrest : rest.length < fuel := by
        simp only [List.length_cons] at hfuel
        omega
      simp only [runBlock]
      generalize runner child s = o at hchild
      cases o with
      | done flow s' =>
        cases flow with
        | value v =>
          have hnext : children = (earlier ++ [child]) ++ rest := by simp [hsplit]
          exact ih hnext hrest v s'
        | jump label =>
          rcases List.mem_append.1 hchild with hlater | houter
          · obtain ⟨i, skipped, tail, hposition, rfl, hdrop⟩ :=
              Block.position?_later hlabels hsplit hlater
            have hnext : children = (earlier ++ child :: skipped) ++ tail := by simp [hsplit]
            have hless : tail.length < fuel := by
              simp only [List.length_append] at hrest
              omega
            simp only [hposition, hdrop]
            exact ih hnext hless last s'
          · -- The block does not declare the label: the jump leaves it.
            obtain ⟨hahead, hundeclared⟩ := List.mem_filter.1 houter
            have hposition : Block.position? children label = none :=
              Block.position?_eq_none_iff.2 (by simpa using hundeclared)
            simp only [hposition]
            exact hahead
      | failed e s' => trivial
      | outOfFuel => exact hchild

theorem runArgs_finishes {args : List Code}
    (hargs : ∀ arg ∈ args, ∀ s, (runner arg s).Finishes ahead) (taken : List Value) (s : σ) :
    (runArgs runner args taken s).Finishes ahead := by
  induction args generalizing taken s with
  | nil => trivial
  | cons arg args ih =>
    refine (hargs arg (by simp) s).onValue ?_
    intro v s'
    exact ih (fun n hn => hargs n (by simp [hn])) (v :: taken) s'

end Parts

/-- A call finishes if the body of the function does; no jump leaves it then. -/
theorem callValue_finishes (host : Host η) {runner : Runner (Config η)} {f : Value}
    (hbody : ∀ id name params body, f = .function id name params body → ∀ c,
      (runner body c).Finishes []) (e : Environment) (args : List Value) (w : World η) :
    (callValue host runner e f args w).Finishes [] := by
  cases f with
  | native k =>
    simp only [callValue]
    split <;> trivial
  | function id name params body =>
    simp only [callValue]
    split
    · have hrun := hbody id name params body rfl ⟨e.bindAll params args, w⟩
      exact (hrun.mapState _).mapError _
    · trivial
  | _ => trivial

theorem length_lt_sizeOf (codes : List Code) : codes.length < sizeOf codes := by
  induction codes with
  | nil => simp
  | cons code codes ih =>
    simp only [List.length_cons, List.cons.sizeOf_spec]
    omega

/-- The size of onward code is enough fuel for it, in every state. -/
theorem run_finishes (host : Host η) {n : Code} {ahead : List Name} (h : n.Onward ahead)
    {fuel : Nat} (hfuel : sizeOf n ≤ fuel) (c : Config η) :
    (run host fuel n c).Finishes ahead := by
  induction fuel generalizing n ahead c with
  | zero => cases n <;> simp at hfuel
  | succ fuel ih =>
    have hinside : ∀ {m : Code} {inner : List Name}, Code.Inside m n → m.Onward inner →
        ∀ c, (run host fuel m c).Finishes inner := by
      intro m inner hm honward c
      have hlt := hm.sizeOf_lt
      exact ih honward (by omega) c
    have hpart : ∀ {m : Code} {inner : List Name}, Code.Part m n → m.Onward inner →
        ∀ c, (run host fuel m c).Finishes inner := fun hm => hinside (.part hm)
    rw [run_succ]
    cases h with
    | data h => trivial
    | function h => trivial
    | var name =>
      simp only [step]
      cases c.get name <;> trivial
    | define name => trivial
    | label name => trivial
    | goto h => exact h
    | definition h => trivial
    | @assign _ name expr h =>
      simp only [step]
      split
      · trivial
      · trivial
      · exact (hpart (.expr name expr) h c).onValue fun v c' => trivial
    | @block _ children hlabels h =>
      have hlength := length_lt_sizeOf children
      refine runBlock_finishes hlabels ?_ (List.nil_append children).symm ?_ .absent c
      · intro earlier child later hsplit c'
        exact hpart (.child (by simp [hsplit])) (h earlier child later hsplit) c'
      · simp only [Code.block.sizeOf_spec] at hfuel
        omega
    | @when _ test body htest hbody =>
      refine (hpart (.whenTest test body) htest c).onValue ?_
      intro v c'
      split
      · exact hpart (.whenBody test body) hbody c'
      · trivial
    | @choose _ test yes no htest hyes hno =>
      refine (hpart (.test test yes no) htest c).onValue ?_
      intro v c'
      split
      · exact hpart (.yes test yes no) hyes c'
      · exact hpart (.no test yes no) hno c'
    | @call _ v args hcallee hargs =>
      have hconst : ∀ c, run host fuel (.const v) c = .done (.value v) c := by
        intro c
        have hcallee := hpart (.callee (.const v) args) hcallee c
        cases fuel with
        | zero => exact absurd hcallee fun h => h
        | succ fuel => rfl
      -- What is called is inside the code, whatever the state.
      have hbody : ∀ id name params body, v = .function id name params body → ∀ c,
          (run host fuel body c).Finishes [] := by
        rintro id name params body rfl c
        have hheld := (Code.Inside.held id name params body).sizeOf_lt
        have hcalled := (Code.Part.callee (.const (.function id name params body)) args).sizeOf_lt
        exact ih hcallee.value.body (by omega) c
      simp only [step, hconst, Outcome.onValue]
      refine (runArgs_finishes ?_ [] c).onValue ?_
      · exact fun arg harg c => hpart (.arg _ harg) (hargs arg harg) c
      · intro vs c'
        have hcall := callValue_finishes host hbody c'.env vs c'.world
        exact (hcall.mono (by simp)).mapState _

def onward {host : Host η} {held : η → Value → Prop} (hback : host.HandsBack held)
    (inPlay : CellId → Prop) : Invariant host where
  env e := e.Carries Value.Onward inPlay
  world w := w.cells.Carry Value.Onward inPlay ∧ ∀ v, held w.host v → v.Onward
  value := Value.Onward
  cell _ := True
  code _ n := ∃ ahead, n.Onward ahead
  absent := .data fun h => h
  part h hpart := by
    obtain ⟨ahead, h⟩ := h
    exact h.part hpart
  const h := by
    obtain ⟨ahead, h⟩ := h
    exact h.value
  body h := ⟨[], h.body⟩
  read he hw h := he.lookup? hw.1 h
  bind name he hv := he.bindValue name hv
  define _ he hw := by
    obtain ⟨henv, hcells⟩ := Config.define_carries (.data fun h => h) he hw.1 _
    exact ⟨henv, hcells, hw.2⟩
  target _ _ _ := trivial
  store hw _ hv := ⟨hw.1.set _ hv, hw.2⟩
  native _ hargs hw happly := by
    obtain ⟨hworld, hvalue⟩ := hback.apply_carries (fun _ hv => .data hv) hargs hw happly
    exact ⟨hworld, hvalue, fun _ _ => trivial⟩

section Programs

variable {host : Host η} {held : η → Value → Prop} {hback : host.HandsBack held}
  {inPlay : CellId → Prop}

theorem onward_accepts {tree : Tree} (hcalls : tree.everywhere Tree.callsNamed)
    (hjumps : tree.jumpsForward []) : (onward hback inPlay).Accepts tree := by
  intro it code hit hcompile
  have hcode := onward_of_compile (Invariant.target_value hit) hcalls hjumps hcompile
  refine ⟨⟨[], hcode⟩, ?_⟩
  rintro id name params body rfl
  cases hcode with
  | definition h => exact .function h

theorem runForm_terminates {n : Code} (h : n.Onward []) (id : Nat) (it : Interpreter η) :
    Interpreter.runForm (run host (sizeOf n)) ⟨id, n⟩ it ≠ .outOfFuel := by
  unfold Interpreter.runForm
  split
  · exact fun heq => by cases heq
  · have hrun := (run_finishes host h (Nat.le_refl _) it.config).mapState it.withConfig
    generalize (run host (sizeOf n) n it.config).mapState it.withConfig = o at hrun
    cases o with
    | done flow it' => cases flow <;> exact fun heq => by cases heq
    | failed e it' => exact fun heq => by cases heq
    | outOfFuel => exact absurd hrun fun h => h

theorem runTree_terminates {tree : Tree} (hcalls : tree.everywhere Tree.callsNamed)
    (hjumps : tree.jumpsForward []) {it : Interpreter η}
    (hit : (onward hback inPlay).Governs it) :
    ∃ fuel, Interpreter.runTree (run host fuel) tree it ≠ .outOfFuel := by
  unfold Interpreter.runTree Interpreter.compile
  cases hcompile : compile it.scope tree with
  | error e => exact ⟨0, fun heq => by cases heq⟩
  | ok n =>
    have hcode := onward_of_compile (Invariant.target_value hit) hcalls hjumps hcompile
    exact ⟨sizeOf n, runForm_terminates hcode it.nextId _⟩

/-- Forms with named calls and forward jumps end one after the other: what each leaves is
onward, so that the next finds onward functions to call. -/
theorem runForms_terminate {trees : List Tree}
    (hcalls : ∀ tree ∈ trees, tree.everywhere Tree.callsNamed)
    (hjumps : ∀ tree ∈ trees, tree.jumpsForward []) (index : Nat) (result : Value)
    {it : Interpreter η} (hit : (onward hback inPlay).Governs it) :
    ∃ fuel, Interpreter.runForms (run host fuel) index trees result it ≠ .outOfFuel := by
  induction trees generalizing index result it with
  | nil => exact ⟨0, fun heq => by cases heq⟩
  | cons tree trees ih =>
    have hcall := hcalls tree (by simp)
    have hjump := hjumps tree (by simp)
    obtain ⟨fuel, hends⟩ := runTree_terminates hcall hjump hit
    have hmeets := Invariant.runTree_meets (Invariant.covers_all _) fuel
      (onward_accepts hcall hjump) hit
    cases hfirst : Interpreter.runTree (run host fuel) tree it with
    | failed e it' =>
      refine ⟨fuel, ?_⟩
      simp [Interpreter.runForms, hfirst]
    | outOfFuel => exact absurd hfirst hends
    | done v it' =>
      rw [hfirst] at hmeets
      obtain ⟨fuel', hrest⟩ := ih (fun t ht => hcalls t (by simp [ht]))
        (fun t ht => hjumps t (by simp [ht])) (index + 1) (v.getD result) hmeets.2
      have hle := run_below host (Nat.le_max_left fuel fuel')
      have hle' := run_below host (Nat.le_max_right fuel fuel')
      have htree := (Interpreter.runTree_below hle tree it).eq hends
      have hforms := Interpreter.runForms_below hle' (index + 1) trees (v.getD result) it'
      refine ⟨max fuel fuel', ?_⟩
      rw [Interpreter.runForms, htree, hfirst]
      dsimp only
      rwa [hforms.eq hrest]

end Programs

/-- Without recursion and jumps back, programs end. Start from globals without user
functions, with natives that give functions back only, also to the cells they hold. If in
a program every call has its target by name, and every jump lies, in its form or function
body, in a block that declares its label, the innermost of which has the label at a later
child than the one the jump lies in, then the program ends. -/
theorem forward_programs_end {host : Host η} {held : η → Value → Prop}
    (hback : host.HandsBack held) {it : Interpreter η}
    (hheld : ∀ v, held it.world.host v → ¬ v.IsFunction)
    (hglobals : ∀ name v, it.lookup? name = some v → ¬ v.IsFunction) {root : Tree}
    (hcalls : ∀ form ∈ root.children, form.everywhere Tree.callsNamed)
    (hjumps : ∀ form ∈ root.children, form.jumpsForward []) :
    ∃ o, it.EndsWith host root o := by
  have hdata : ∀ v : Value, ¬ v.IsFunction → v.Onward := fun v hv => .data hv
  obtain ⟨hcarries, hcarry⟩ := Interpreter.carries_of_data hdata hglobals
  have hit : (onward hback it.InPlay).Governs it :=
    ⟨hcarries, hcarry, fun v hv => hdata v (hheld v hv)⟩
  obtain ⟨fuel, hends⟩ := runForms_terminate hcalls hjumps 0 .absent hit
  exact ⟨_, hends, fuel, rfl⟩

def skipping : Tree where
  tag := "program"
  children := [
    { tag := "function", attributes := .ofList [("name", "tell"), ("args", "x")], children := [
      { tag := "begin", children := [
        { tag := "if", children := [
          { tag := "call", attributes := .ofList [("fun", "eq")], children := [
            { tag := "var", attributes := .ofList [("name", "x")] },
            { tag := "string", attributes := .ofList [("value", "secret")] }] },
          { tag := "begin", children := [
            { tag := "goto", attributes := .ofList [("label", "done")] }] }] },
        { tag := "call", attributes := .ofList [("fun", "print")], children := [
          { tag := "var", attributes := .ofList [("name", "x")] }] },
        { tag := "label", attributes := .ofList [("name", "done")] }] }] },
    { tag := "function", attributes := .ofList [("name", "tellBoth"), ("args", "x, y")],
      children := [
        { tag := "begin", children := [
          { tag := "call", attributes := .ofList [("fun", "tell")], children := [
            { tag := "var", attributes := .ofList [("name", "x")] }] },
          { tag := "call", attributes := .ofList [("fun", "tell")], children := [
            { tag := "var", attributes := .ofList [("name", "y")] }] }] }] },
    { tag := "call", attributes := .ofList [("fun", "tellBoth")], children := [
      { tag := "string", attributes := .ofList [("value", "secret")] },
      { tag := "string", attributes := .ofList [("value", "news")] }] }]

/-- The calls in `skipping` are by name and its jump goes forward, so it ends. -/
theorem skipping_ends :
    (∀ form ∈ skipping.children, form.everywhere Tree.callsNamed) ∧
    (∀ form ∈ skipping.children, form.jumpsForward []) ∧
    ∃ o, withEcho.EndsWith Stock.host skipping o := by
  have hcalls : ∀ form ∈ skipping.children, form.everywhere Tree.callsNamed := by decide
  have hjumps : ∀ form ∈ skipping.children, form.jumpsForward [] := by decide
  refine ⟨hcalls, hjumps, ?_⟩
  exact forward_programs_end Stock.handsBack (fun v hv => absurd hv withEcho_holds)
    (fun name v hv => withEcho_lookup? hv) hcalls hjumps

end Treewalk
