import Gremlin.Proofs.Modes
import Gremlin.Proofs.Plain

/-!
# Bytecode and scripts

Bytecode and the script of the plain dialect are made by two walks over a traversal, and both
say what the tree of the traversal says. The walk for bytecode is followed level by level: it
meets the same names in the same order as the one for the tree, so it fails where that one does.

* `Bytecode.within_eq`, `Bytecode.bytecode_eq`: the bound that its making runs on does not show;
* `Bytecode.agree_within`: bytecode is made in lock step with the tree;
* `Traversal.bytecode_mirrors_script`: bytecode has the steps that the script writes, and for
  each value the JSON that the script binds.
-/

namespace Gremlin

variable {ρ : Type}

namespace Bytecode

/-! ## Bytecode of trees -/

section Mirrors

variable (held : Value ρ → Option Json)

mutual

/-- Bytecode says what a tree says, where `held` is the JSON that there is for a value. -/
inductive Mirrors : Tree ρ → Bytecode → Prop where
  | tree {graph : String} {steps : List (Tree.Step ρ)} {source others : List Instruction}
      (h : Listed steps source others) : Mirrors ⟨graph, steps⟩ ⟨source, others⟩

/-- The steps that configure the source are listed apart from the others, and both lists keep
the order of the steps. -/
inductive Listed : List (Tree.Step ρ) → List Instruction → List Instruction → Prop where
  | nil : Listed [] [] []
  | source {s : Tree.Step ρ} {i : Instruction} {rest : List (Tree.Step ρ)}
      {source others : List Instruction}
      (hname : s.name ∈ ["withoutStrategies", "withStrategies", "withSideEffect"])
      (hs : Told s i) (hrest : Listed rest source others) :
      Listed (s :: rest) (i :: source) others
  | other {s : Tree.Step ρ} {i : Instruction} {rest : List (Tree.Step ρ)}
      {source others : List Instruction}
      (hname : s.name ∉ ["withoutStrategies", "withStrategies", "withSideEffect"])
      (hs : Told s i) (hrest : Listed rest source others) :
      Listed (s :: rest) source (i :: others)

/-- The instruction has the name of the step and an argument for each parameter. -/
inductive Told : Tree.Step ρ → Instruction → Prop where
  | step {name : String} {parts : List (Tree.Part ρ)} {arguments : List Argument}
      (h : Taken parts arguments) : Told ⟨name, parts⟩ ⟨name, arguments⟩

inductive Taken : List (Tree.Part ρ) → List Argument → Prop where
  | nil : Taken [] []
  | cons {p : Tree.Part ρ} {a : Argument} {parts : List (Tree.Part ρ)}
      {arguments : List Argument} (hp : Stands p a) (hrest : Taken parts arguments) :
      Taken (p :: parts) (a :: arguments)

/-- What an argument stands for. -/
inductive Stands : Tree.Part ρ → Argument → Prop where
  | value {b : Bindable ρ} {json : Json} (h : held b.val = some json) :
      Stands (.value b) (.value json)
  | key (name : String) : Stands (.key name) (.value (.text name))
  | token (word : String) : Stands (.token word) (.value (ofToken word))
  | nested {tree : Tree ρ} {code : Bytecode} (h : Mirrors tree code) :
      Stands (.nested tree) (.traversal code)

end

end Mirrors

/-! ### Only the values of a tree matter -/

section Congr

variable {held held' : Value ρ → Option Json}

-- The hypothesis is handed down along the pieces: a value of a part is a value of the whole.
mutual

theorem Mirrors.congr : {x : Tree ρ} → {code : Bytecode} → Mirrors held x code →
    (∀ b, .value b ∈ x.pieces → held b.val = held' b.val) → Mirrors held' x code
  | ⟨graph, steps⟩, _, .tree h, hheld => by
    refine .tree (h.congr ?_)
    intro s hs b hb
    apply hheld
    have hgroup : s.pieces ∈ Tree.stepGroups steps := by
      rw [Tree.stepGroups_eq]
      exact List.mem_map_of_mem hs
    exact List.mem_cons_of_mem _ (Piece.value_mem_separated.mpr ⟨s.pieces, hgroup, hb⟩)

theorem Listed.congr : {steps : List (Tree.Step ρ)} → {source others : List Instruction} →
    Listed held steps source others →
    (∀ s ∈ steps, ∀ b, .value b ∈ s.pieces → held b.val = held' b.val) →
    Listed held' steps source others
  | _, _, _, .nil, _ => .nil
  | _, _, _, .source hname hs hrest, hheld => by
    have hfirst := hs.congr (hheld _ List.mem_cons_self)
    have hothers := hrest.congr fun s hs => hheld s (List.mem_cons_of_mem _ hs)
    exact .source hname hfirst hothers
  | _, _, _, .other hname hs hrest, hheld => by
    have hfirst := hs.congr (hheld _ List.mem_cons_self)
    have hothers := hrest.congr fun s hs => hheld s (List.mem_cons_of_mem _ hs)
    exact .other hname hfirst hothers

theorem Told.congr : {s : Tree.Step ρ} → {i : Instruction} → Told held s i →
    (∀ b, .value b ∈ s.pieces → held b.val = held' b.val) → Told held' s i
  | ⟨name, parts⟩, _, .step h, hheld => by
    refine .step (h.congr ?_)
    intro p hp b hb
    apply hheld
    have hgroup : p.pieces ∈ Tree.partGroups parts := by
      rw [Tree.partGroups_eq]
      exact List.mem_map_of_mem hp
    have hwritten : .value b ∈ Piece.separated ", " false (Tree.partGroups parts) :=
      Piece.value_mem_separated.mpr ⟨p.pieces, hgroup, hb⟩
    exact List.mem_cons_of_mem _ (List.mem_cons_of_mem _ (List.mem_append_left _ hwritten))

theorem Taken.congr : {parts : List (Tree.Part ρ)} → {arguments : List Argument} →
    Taken held parts arguments →
    (∀ p ∈ parts, ∀ b, .value b ∈ p.pieces → held b.val = held' b.val) →
    Taken held' parts arguments
  | _, _, .nil, _ => .nil
  | _, _, .cons hp hrest, hheld => by
    have hfirst := hp.congr (hheld _ List.mem_cons_self)
    have hothers := hrest.congr fun p hp => hheld p (List.mem_cons_of_mem _ hp)
    exact .cons hfirst hothers

theorem Stands.congr : {p : Tree.Part ρ} → {a : Argument} → Stands held p a →
    (∀ b, .value b ∈ p.pieces → held b.val = held' b.val) → Stands held' p a
  | .value b, _, .value h, hheld => by
    have hsame := hheld b (by simp [Tree.Part.pieces])
    exact .value (hsame.symm.trans h)
  | _, _, .key name, _ => .key name
  | _, _, .token word, _ => .token word
  | _, _, .nested h, hheld => .nested (h.congr hheld)

end

end Congr

/-! ### Lists of related things -/

section Pairs

variable {held : Value ρ → Option Json}

theorem Taken.of_forall {parts : List (Tree.Part ρ)} {arguments : List Argument}
    (h : List.Forall₂ (Stands held) parts arguments) : Taken held parts arguments := by
  induction h with
  | nil => exact .nil
  | cons hp _ ih => exact .cons hp ih

theorem isSourceStep_iff {name : String} :
    isSourceStep name = true ↔
      name ∈ ["withoutStrategies", "withStrategies", "withSideEffect"] := by
  simp [isSourceStep, or_assoc]

theorem Told.operator_eq {s : Tree.Step ρ} {i : Instruction} (h : Told held s i) :
    i.operator = s.name := by
  cases h
  rfl

/-- Filtering instructions twice puts each in its list. -/
theorem Listed.of_forall {steps : List (Tree.Step ρ)} {is : List Instruction}
    (h : List.Forall₂ (Told held) steps is) :
    Listed held steps (is.filter fun i => isSourceStep i.operator)
      (is.filter fun i => !isSourceStep i.operator) := by
  induction h with
  | nil => exact .nil
  | @cons s i rest is hs _ ih =>
    have hname := hs.operator_eq
    -- the name decides which of the two filters keeps the instruction
    by_cases hsource : isSourceStep i.operator = true
    · simp only [List.filter_cons, hsource, if_true, Bool.not_true, Bool.false_eq_true, if_false]
      rw [hname, isSourceStep_iff] at hsource
      exact .source hsource hs ih
    · simp only [List.filter_cons, hsource, Bool.not_false, if_true]
      rw [hname, isSourceStep_iff] at hsource
      exact .other hsource hs ih

end Pairs

/-! ## Lock step -/

section Walk

variable (nested : Traversal ρ → Except Error Bytecode)

theorem arguments_eq_mapM (values : List (Value ρ)) :
    arguments nested values = values.mapM (argument nested) := by
  induction values with
  | nil => rfl
  | cons v rest ih => rw [arguments, ih, List.mapM_cons]

/-- The instruction for a resolved step. -/
def instruction (s : Step ρ) : Except Error Instruction :=
  (arguments nested s.parameters).map (⟨s.name, ·⟩)

theorem instructions_eq_mapM (steps : List (Step ρ)) :
    instructions nested steps = steps.mapM (instruction nested) := by
  induction steps with
  | nil => rfl
  | cons s rest ih =>
    rw [instructions, ih, List.mapM_cons, instruction]
    cases arguments nested s.parameters <;> rfl

/-- The instructions for what a step resolves to. -/
def expanded (scope : Scope) (s : Step ρ) : Except Error (List Instruction) := do
  (← s.resolve scope).mapM (instruction nested)

theorem resolved_eq_mapM (scope : Scope) (raw : List (Step ρ)) :
    resolved nested scope raw = (raw.mapM (expanded nested scope)).map List.flatten := by
  induction raw with
  | nil => rfl
  | cons s rest ih =>
    rw [resolved, ih, List.mapM_cons, expanded]
    simp only [instructions_eq_mapM]
    cases s.resolve scope with
    | error e => rfl
    | ok rs =>
      show (rs.mapM (instruction nested) >>= _) = Except.map _ (rs.mapM (instruction nested) >>= _)
      cases rs.mapM (instruction nested) with
      | error e => rfl
      | ok is => cases rest.mapM (expanded nested scope) <;> rfl

end Walk

/-! ### The bound does not show -/

section Nested

variable {nested nested' : Traversal ρ → Except Error Bytecode}

theorem instruction_congr {s : Step ρ}
    (h : ∀ t, .traversal t ∈ s.parameters → nested t = nested' t) :
    instruction nested s = instruction nested' s := by
  rw [instruction, instruction, arguments_eq_mapM, arguments_eq_mapM, mapM_congr]
  intro v hv
  cases v with
  | traversal t => simp only [argument, h t hv]
  | _ => rfl

theorem resolved_congr {scope : Scope} {raw : List (Step ρ)}
    (h : ∀ s ∈ raw, ∀ rs, s.resolve scope = .ok rs → ∀ r ∈ rs, ∀ t, .traversal t ∈ r.parameters →
      nested t = nested' t) :
    resolved nested scope raw = resolved nested' scope raw := by
  rw [resolved_eq_mapM, resolved_eq_mapM, mapM_congr]
  intro s hs
  unfold expanded
  cases hresolve : s.resolve scope with
  | error e => rfl
  | ok rs =>
    apply mapM_congr
    intro r hr
    exact instruction_congr (h s hs rs hresolve r hr)

end Nested

/-- Levels above those of a traversal do not matter, so the empty bytecode at the end of the bound is
never come to. -/
theorem within_eq {levels levels' : Nat} {t : Traversal ρ} (h : t.nesting < levels)
    (h' : t.nesting < levels') : within levels t = within levels' t := by
  -- each level uses up one of both bounds
  induction levels generalizing levels' t with
  | zero => omega
  | succ levels ih =>
    obtain ⟨levels', rfl⟩ : ∃ n, levels' = n + 1 := ⟨levels' - 1, by omega⟩
    simp only [within]
    rw [resolved_congr]
    intro s hs rs hresolve r hr u hu
    have hlt := Tree.nesting_lt hs hresolve hr hu
    exact ih (by omega) (by omega)

/-- The bytecode of a traversal is made from the bytecode of what is nested in it. -/
theorem bytecode_eq (t : Traversal ρ) :
    t.bytecode = (resolved Traversal.bytecode t.scope t.steps.toList).map ofInstructions := by
  rw [Traversal.bytecode, within, resolved_congr]
  intro s hs rs hresolve r hr u hu
  exact within_eq (Tree.nesting_lt hs hresolve hr hu) (Nat.lt_succ_self _)

/-- The JSON form of every value. -/
abbrev jsonForm : Value ρ → Option Json := fun v => some v.toJson

section Agreement

variable {treeOf : Traversal ρ → Except Error (Tree ρ)}
  {codeOf : Traversal ρ → Except Error Bytecode}

theorem agree_part (h : ∀ t, Agree (Mirrors jsonForm) (treeOf t) (codeOf t)) (v : Value ρ) :
    Agree (Stands jsonForm) (v.part treeOf) (argument codeOf v) := by
  cases v with
  | traversal t => exact (h t).map fun _ _ hmirrors => .nested hmirrors
  | key name => exact Stands.key name
  | token word => exact Stands.token word
  | member m => exact rfl
  | elementType name => exact rfl
  | _ => exact Stands.value rfl

theorem agree_step (h : ∀ t, Agree (Mirrors jsonForm) (treeOf t) (codeOf t)) (s : Step ρ) :
    Agree (Told jsonForm) (Tree.ofStep treeOf s) (instruction codeOf s) := by
  unfold Tree.ofStep instruction
  rw [arguments_eq_mapM]
  have hparameters : Agree (List.Forall₂ (Stands jsonForm))
      (s.parameters.mapM (Value.part treeOf)) (s.parameters.mapM (argument codeOf)) := by
    apply Agree.mapM
    intro v _
    exact agree_part h v
  apply hparameters.map
  intro parts arguments hpairs
  exact .step (Taken.of_forall hpairs)

/-- Both walks resolve a step in the same way, so they report the same failure. -/
theorem agree_expanded (h : ∀ t, Agree (Mirrors jsonForm) (treeOf t) (codeOf t)) (scope : Scope)
    (s : Step ρ) :
    Agree (List.Forall₂ (Told jsonForm)) (Tree.expanded treeOf scope s)
      (expanded codeOf scope s) := by
  unfold Tree.expanded expanded
  cases s.resolve scope with
  | error e => exact rfl
  | ok rs =>
    apply Agree.mapM
    intro r _
    exact agree_step h r

theorem agree_resolved (h : ∀ t, Agree (Mirrors jsonForm) (treeOf t) (codeOf t)) (scope : Scope)
    (raw : List (Step ρ)) :
    Agree (List.Forall₂ (Told jsonForm)) (Tree.resolved treeOf scope raw)
      (resolved codeOf scope raw) := by
  rw [Tree.resolved, resolved_eq_mapM]
  have hgroups : Agree (List.Forall₂ (List.Forall₂ (Told jsonForm)))
      (raw.mapM (Tree.expanded treeOf scope)) (raw.mapM (expanded codeOf scope)) := by
    apply Agree.mapM
    intro s _
    exact agree_expanded h scope s
  apply hgroups.map
  intro stepGroups instructionGroups hpairs
  exact List.rel_flatten hpairs

end Agreement

/-- Bytecode is made in lock step with the tree. -/
theorem agree_within (levels : Nat) (t : Traversal ρ) :
    Agree (Mirrors jsonForm) (Tree.within levels t) (within levels t) := by
  induction levels generalizing t with
  | zero => exact .tree .nil
  | succ levels ih =>
    -- the instructions are listed in the order of the steps, and only then taken apart
    have hsteps := agree_resolved ih t.scope t.steps.toList
    apply hsteps.map
    intro steps is hpairs
    exact .tree (Listed.of_forall hpairs)

end Bytecode

open Bytecode in
/-- Bytecode and the plain script with bound literals agree: both fail for the same name without
meaning, or neither fails. Then the steps that the script writes are those of a tree of resolved
steps, and the bytecode mirrors this tree level by level, where for each value an argument has
the JSON that the parameters of the script hold under the name that is written for it. -/
theorem Traversal.bytecode_mirrors_script {t : Traversal ρ} (h : t.nesting ≤ 100) :
    match t.bytecode, Dialect.plain.compile t false with
    | .error e, .error e' => e = e' ∧ e.IsUnknown
    | .ok code, .ok script =>
      ∃ (x : Tree ρ) (name : Value ρ → String),
        t.tree = .ok x ∧ script.text = Piece.text name x.pieces ∧
        Mirrors (fun v => script.parameters.lookup (name v)) x code
    | _, _ => False := by
  have hagree : Agree (Mirrors jsonForm) t.tree t.bytecode := agree_within (t.nesting + 1) t
  -- the bound on nested dispatches is out of reach, so the script is the tree written out
  rw [Dialect.compile_eq_draft Dialect.isReady_plain, Dialect.draft_plain (by omega)]
  cases htree : t.tree with
  | error e =>
    rw [htree] at hagree
    cases hcode : t.bytecode with
    | error e' =>
      rw [hcode] at hagree
      have heq : e = e' := hagree
      exact ⟨heq.symm, heq ▸ Tree.isUnknown_of_within htree⟩
    | ok code => simp [hcode, Agree] at hagree
  | ok x =>
    rw [htree] at hagree
    cases hcode : t.bytecode with
    | error e => simp [hcode, Agree] at hagree
    | ok code =>
      rw [hcode] at hagree
      have hmirrors : Mirrors jsonForm x code := hagree
      -- on the values of the tree, the JSON form is what the parameters hold
      obtain ⟨name, htext, hlookup, _⟩ :=
        Dialect.exists_names_of_bound t.environment.options x.pieces
      have hbound : Mirrors
          (fun v => (Dialect.script ⟨false, t.environment.options⟩ x.pieces).parameters.lookup
            (name v)) x code := by
        apply hmirrors.congr
        intro b hb
        exact (hlookup b hb).symm
      exact ⟨x, name, rfl, htext, hbound⟩

open Bytecode in
theorem Traversal.bytecode_mirrors_script_assorted :
    assorted.nesting ≤ 100 ∧
      match assorted.bytecode, Dialect.plain.compile assorted false with
      | .error e, .error e' => e = e' ∧ e.IsUnknown
      | .ok code, .ok script =>
        ∃ (x : Tree Unit) (name : Value Unit → String),
          assorted.tree = .ok x ∧ script.text = Piece.text name x.pieces ∧
          Mirrors (fun v => script.parameters.lookup (name v)) x code
      | _, _ => False :=
  ⟨by decide, bytecode_mirrors_script (t := assorted) (by decide)⟩

end Gremlin
