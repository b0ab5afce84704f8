import Gremlin.Proofs.Results
import Gremlin.Script.Stock

/-!
# Drafts

A draft of a compilation lists what is written without settling how literals are: pieces of
fixed text, and the values that reach the encoder, in the order in which they do. Ready-made
rules look neither at the mode nor at the output, so what they make of an atom is a verdict on
the atom alone, and a dialect made of them has one draft for both modes.

* `Rule.run_eq_follow`: a ready-made rule does what its verdict says;
* `Dispatch.within_follows`: dispatching writes what the draft lists, and fails where it fails;
* `Dialect.compile_eq_draft`: a compiled script is the draft, written in the mode.
-/

namespace Gremlin

variable {ρ : Type}

/-! ## Pieces -/

/-- A literal or an entity: the value is written into the text or bound. -/
def Value.isBindable : Value ρ → Bool
  | .entity _ => true
  | v => v.isLiteral

/-- The values that are written into the text or bound. -/
abbrev Bindable (ρ : Type) := { v : Value ρ // v.isBindable = true }

namespace Bindable

abbrev null : Bindable ρ := ⟨.null, rfl⟩

abbrev bool (b : Bool) : Bindable ρ := ⟨.bool b, rfl⟩

abbrev int (n : Int32) : Bindable ρ := ⟨.int n, rfl⟩

abbrev long (n : Int64) : Bindable ρ := ⟨.long n, rfl⟩

abbrev float (x : Double) : Bindable ρ := ⟨.float x, rfl⟩

abbrev text (s : String) : Bindable ρ := ⟨.text s, rfl⟩

abbrev entity (e : Entity ρ) : Bindable ρ := ⟨.entity e, rfl⟩

end Bindable

/-- A part of a script. -/
inductive Piece (ρ : Type) where
  | fixed (text : String)
  /-- A value, to be written as the mode says. -/
  | value (b : Bindable ρ)

namespace Piece

/-- The text of pieces in which values are written as `form` says. -/
def text (form : Value ρ → String) : List (Piece ρ) → String
  | [] => ""
  | .fixed s :: rest => s ++ text form rest
  | .value b :: rest => form b.val ++ text form rest

/-- Groups of pieces with a mark in front of each group, the first excepted if there is nothing
to separate it from. -/
def separated (mark : String) : (separate : Bool) → List (List (Piece ρ)) → List (Piece ρ)
  | _, [] => []
  | separate, group :: rest =>
    (if separate then [.fixed mark] else []) ++ (group ++ separated mark true rest)

theorem separated_append (mark : String) (separate : Bool) (before after : List (List (Piece ρ))) :
    separated mark separate (before ++ after) =
      separated mark separate before ++ separated mark (separate || !before.isEmpty) after := by
  induction before generalizing separate with
  | nil => simp [separated]
  | cons group rest ih => simp [separated, ih]

theorem value_mem_separated {mark : String} {separate : Bool} {groups : List (List (Piece ρ))}
    {b : Bindable ρ} :
    .value b ∈ separated mark separate groups ↔ ∃ group ∈ groups, .value b ∈ group := by
  induction groups generalizing separate with
  | nil => simp [separated]
  | cons group rest ih => cases separate <;> simp [separated, ih]

/-- Adds a piece to an output. -/
def write (mode : Mode) (o : Output) : Piece ρ → Output
  | .fixed s => o.push s
  | .value b => o.literal mode b.val

/-- Adds pieces to an output, in order. -/
def writeAll (mode : Mode) (o : Output) (pieces : List (Piece ρ)) : Output :=
  pieces.foldl (write mode) o

@[simp] theorem writeAll_nil (mode : Mode) (o : Output) :
    writeAll mode o ([] : List (Piece ρ)) = o := rfl

@[simp] theorem writeAll_cons (mode : Mode) (o : Output) (p : Piece ρ) (rest : List (Piece ρ)) :
    writeAll mode o (p :: rest) = writeAll mode (p.write mode o) rest := rfl

theorem writeAll_append (mode : Mode) (o : Output) (ps qs : List (Piece ρ)) :
    writeAll mode o (ps ++ qs) = writeAll mode (writeAll mode o ps) qs := by
  simp [writeAll]

end Piece

/-! ## Verdicts -/

/-- What a ready-made rule makes of an atom. -/
inductive Verdict (ρ : Type) where
  /-- The atom goes to the rule below, or to the encoder. -/
  | pass
  /-- Another atom is dispatched in its place. -/
  | substitute (a : Atom ρ)
  /-- The atom cannot be written. -/
  | reject (e : Error)

def StepRule.verdict (options : Options) (s : Step ρ) : StepRule ρ → Verdict ρ
  | .atMost max =>
    match s.excess? max with
    | some n => .reject (.valueRange s.name n max)
    | none => .pass
  | rule =>
    match rule.substitute? ⟨false, options⟩ s with
    | some t => .substitute (.step t)
    | none => .pass

def ValueRule.verdict (v : Value ρ) : ValueRule ρ → Verdict ρ
  | .narrowed =>
    match v with
    | .long n =>
      if Int32.minValue.toInt64 ≤ n ∧ n ≤ maxInt32 then .substitute (.value (.int n.toInt32))
      else .reject (.valueRange "Long" n maxInt32)
    | _ => .pass
  | .program _ => .pass

namespace Rule

/-- The rule is not a program of actions. -/
def isReady : Rule ρ → Bool
  | .step (.program _) | .value (.program _) | .any _ => false
  | _ => true

def verdict (options : Options) (rule : Rule ρ) (atom : Atom ρ) : Verdict ρ :=
  match rule, atom with
  | .step rule, .step s => rule.verdict options s
  | .value rule, .value v => rule.verdict v
  | _, _ => .pass

/-- The verdict of the topmost rule that has one. -/
def firstVerdict (options : Options) (atom : Atom ρ) : List (Rule ρ) → Verdict ρ
  | [] => .pass
  | rule :: below =>
    match rule.verdict options atom with
    | .pass => firstVerdict options atom below
    | verdict => verdict

end Rule

/-- Carries out a verdict on an atom. -/
def Chain.follow (chain : Chain ρ) (atom : Atom ρ) : Verdict ρ → Pass
  | .pass => chain.overridden atom
  | .substitute a => chain.recurse a
  | .reject e => Pass.fail e

/-- Substitution asks for options only, not for how literals are written. -/
theorem StepRule.substitute?_eq (mode : Mode) (s : Step ρ) (rule : StepRule ρ) :
    rule.substitute? mode s = rule.substitute? ⟨false, mode.options⟩ s := by
  cases rule <;> rfl

/-- A ready-made rule does what its verdict says. -/
theorem Rule.run_eq_follow (mode : Mode) (chain : Chain ρ) {rule : Rule ρ} (atom : Atom ρ)
    (h : rule.isReady = true) :
    rule.run mode chain atom = chain.follow atom (rule.verdict mode.options atom) := by
  rcases rule with rule | rule | actions
  · -- a rule for steps hands values on
    rcases atom with s | v
    · cases rule with
      | program actions => simp [Rule.isReady] at h
      | atMost max =>
        simp only [Rule.run, StepRule.run, Rule.verdict, StepRule.verdict]
        cases s.excess? max <;> rfl
      | _ =>
        simp only [Rule.run, StepRule.run, Rule.verdict, StepRule.verdict,
          StepRule.substitute?_eq mode]
        generalize StepRule.substitute? _ s _ = t
        cases t <;> rfl
    · rfl
  · rcases atom with s | v
    · rfl
    · cases rule with
      | program actions => simp [Rule.isReady] at h
      | narrowed =>
        simp only [Rule.run, ValueRule.run, Rule.verdict, ValueRule.verdict]
        cases v with
        | long n =>
          by_cases hfits : Int32.minValue.toInt64 ≤ n ∧ n ≤ maxInt32
          · simp [hfits, Chain.follow]
          · simp [hfits, Chain.follow]
        | _ => rfl
  · simp [Rule.isReady] at h

namespace Dialect

/-- The dialect has no programs of actions. -/
def IsReady (d : Dialect ρ) : Prop := ∀ layer ∈ d.layers, layer.2.isReady = true

/-- What the rules of a dialect make of an atom. -/
def verdict (d : Dialect ρ) (options : Options) (atom : Atom ρ) : Verdict ρ :=
  Rule.firstVerdict options atom (d.chain atom.tag)

/-- The chain of a tag has the rules that are registered for it. -/
theorem mem_chain {d : Dialect ρ} {tag : Tag} {rule : Rule ρ} :
    rule ∈ d.chain tag ↔ (tag, rule) ∈ d.layers := by
  simp only [chain, List.mem_reverse, List.mem_filterMap]
  constructor
  · rintro ⟨⟨tag', rule'⟩, hlayer, hsome⟩
    split at hsome
    · rename_i htag
      injection hsome with hrule
      rwa [← htag, ← hrule]
    · contradiction
  · intro hlayer
    exact ⟨(tag, rule), hlayer, if_pos rfl⟩

theorem IsReady.chain {d : Dialect ρ} (hd : d.IsReady) (tag : Tag) :
    ∀ rule ∈ d.chain tag, rule.isReady = true := by
  intro rule hrule
  exact hd (tag, rule) (mem_chain.mp hrule)

end Dialect

/-! ## Drafts -/

/-- The pieces that are written, or the error that ends the compilation. -/
abbrev Draft (ρ : Type) := Except Error (List (Piece ρ))

namespace Draft

def fixed (s : String) : Draft ρ := .ok [.fixed s]

/-- One draft after another unless the first fails. -/
def andThen : Draft ρ → Draft ρ → Draft ρ
  | .error e, _ => .error e
  | .ok _, .error e => .error e
  | .ok ps, .ok qs => .ok (ps ++ qs)

@[simp] theorem ok_andThen_ok (ps qs : List (Piece ρ)) :
    andThen (.ok ps) (.ok qs) = .ok (ps ++ qs) := rfl

@[simp] theorem error_andThen (e : Error) (second : Draft ρ) :
    andThen (.error e) second = .error e := by
  cases second <;> rfl

@[simp] theorem ok_andThen_error (ps : List (Piece ρ)) (e : Error) :
    andThen (.ok ps) (.error e) = .error e := rfl

theorem fixed_andThen (s : String) (draft : Draft ρ) :
    andThen (fixed s) draft = draft.map (.fixed s :: ·) := by
  cases draft <;> rfl

theorem andThen_fixed (draft : Draft ρ) (s : String) :
    andThen draft (fixed s) = draft.map (· ++ [.fixed s]) := by
  cases draft <;> rfl

/-! ### Encoding -/

/-- Atoms with a mark in front of each, the first excepted if there is nothing to separate it
from. -/
def separated (mark : String) (dispatch : Atom ρ → Draft ρ) :
    (separate : Bool) → List (Atom ρ) → Draft ρ
  | _, [] => .ok []
  | separate, a :: rest =>
    (if separate then fixed mark else .ok []).andThen
      ((dispatch a).andThen (separated mark dispatch true rest))

/-- The name and the parameters in parentheses. -/
def step (dispatch : Atom ρ → Draft ρ) (s : Step ρ) : Draft ρ :=
  (fixed s.name).andThen ((fixed "(").andThen
    ((separated ", " dispatch false (s.parameters.map .value)).andThen (fixed ")")))

/-- Steps, each resolved when its turn comes. -/
def steps (dispatch : Atom ρ → Draft ρ) (scope : Scope) :
    (separate : Bool) → List (Step ρ) → Draft ρ
  | _, [] => .ok []
  | separate, s :: rest =>
    match s.resolve scope with
    | .error e => .error e
    | .ok resolved =>
      (separated "." dispatch separate (resolved.map .step)).andThen
        (steps dispatch scope (separate || !resolved.isEmpty) rest)

/-- The graph and the resolved steps, separated by points. -/
def traversal (dispatch : Atom ρ → Draft ρ) (t : Traversal ρ) : Draft ρ :=
  (fixed t.graph).andThen (steps dispatch t.scope (!t.graph.isEmpty) t.steps.toList)

/-- A value; a literal or an entity is left to the mode. -/
def value (dispatch : Atom ρ → Draft ρ) : Value ρ → Draft ρ
  | .traversal t => traversal dispatch t
  | .key name => fixed (Text.quoted '"' name)
  | .token word => fixed word
  | .member m => .error (.unknownMapping m.text)
  | .elementType t => .error (.unknownMapping t)
  | .null => .ok [.value .null]
  | .bool b => .ok [.value (.bool b)]
  | .int n => .ok [.value (.int n)]
  | .long n => .ok [.value (.long n)]
  | .float x => .ok [.value (.float x)]
  | .text s => .ok [.value (.text s)]
  | .entity e => .ok [.value (.entity e)]

/-- What the encoder writes for an atom. -/
def atom (dispatch : Atom ρ → Draft ρ) : Atom ρ → Draft ρ
  | .step s => step dispatch s
  | .value v => value dispatch v

/-! The encoder writes what dispatching gives for the parts, put together. -/

theorem separated_eq (mark : String) (dispatch : Atom ρ → Draft ρ) (separate : Bool)
    (atoms : List (Atom ρ)) :
    separated mark dispatch separate atoms =
      (atoms.mapM (m := Except Error) dispatch).map (Piece.separated mark separate) := by
  induction atoms generalizing separate with
  | nil => rfl
  | cons a rest ih =>
    rw [separated, ih, List.mapM_cons]
    cases dispatch a with
    | error e => cases separate <;> rfl
    | ok ps =>
      cases rest.mapM (m := Except Error) dispatch with
      | error e => cases separate <;> rfl
      | ok groups => cases separate <;> rfl

/-- What dispatching gives for values. -/
def parts (dispatch : Atom ρ → Draft ρ) (values : List (Value ρ)) :
    Except Error (List (List (Piece ρ))) :=
  values.mapM (m := Except Error) fun v => dispatch (.value v)

theorem step_eq (dispatch : Atom ρ → Draft ρ) (s : Step ρ) :
    step dispatch s = (parts dispatch s.parameters).map fun groups =>
      .fixed s.name :: .fixed "(" :: (Piece.separated ", " false groups ++ [.fixed ")"]) := by
  have hparts : (s.parameters.map Atom.value).mapM (m := Except Error) dispatch =
      parts dispatch s.parameters := List.mapM_map ..
  rw [step, fixed_andThen, fixed_andThen, andThen_fixed, separated_eq, hparts]
  cases parts dispatch s.parameters <;> rfl

/-- What dispatching gives for the steps that a step resolves to. -/
def expanded (dispatch : Atom ρ → Draft ρ) (scope : Scope) (s : Step ρ) :
    Except Error (List (List (Piece ρ))) := do
  (← s.resolve scope).mapM (m := Except Error) fun r => dispatch (.step r)

theorem steps_eq (dispatch : Atom ρ → Draft ρ) (scope : Scope) (separate : Bool)
    (raw : List (Step ρ)) :
    steps dispatch scope separate raw =
      (raw.mapM (expanded dispatch scope)).map fun groups =>
        Piece.separated "." separate groups.flatten := by
  induction raw generalizing separate with
  | nil => rfl
  | cons s rest ih =>
    rw [steps, List.mapM_cons, expanded]
    cases s.resolve scope with
    | error e => rfl
    | ok resolved =>
      simp only [separated_eq, ih, List.mapM_map]
      show andThen
          (Except.map _ (resolved.mapM (m := Except Error) fun r => dispatch (.step r))) _ =
        Except.map _ ((resolved.mapM (m := Except Error) fun r => dispatch (.step r)) >>= _)
      cases hfirst : resolved.mapM (m := Except Error) fun r => dispatch (.step r) with
      | error e => rfl
      | ok groups =>
        -- whether the rest is separated depends on how many steps there are, not on their text
        have hlength : resolved.isEmpty = groups.isEmpty := by
          have hpairs := mapM_eq_ok_iff.mp hfirst
          cases hpairs <;> rfl
        cases rest.mapM (expanded dispatch scope) with
        | error e => rfl
        | ok others =>
          simp [Except.map, bind, Except.bind, pure, Except.pure, hlength,
            Piece.separated_append]

theorem traversal_eq (dispatch : Atom ρ → Draft ρ) (t : Traversal ρ) :
    traversal dispatch t =
      (t.steps.toList.mapM (expanded dispatch t.scope)).map fun groups =>
        .fixed t.graph :: Piece.separated "." (!t.graph.isEmpty) groups.flatten := by
  rw [traversal, fixed_andThen, steps_eq]
  cases t.steps.toList.mapM (expanded dispatch t.scope) <;> rfl

/-! ### Dispatching -/

/-- What is written for an atom on which the rules have given a verdict, where `restart`
dispatches an atom at a given depth. -/
def after (restart : Nat → Atom ρ → Draft ρ) (depth : Nat) (a : Atom ρ) : Verdict ρ → Draft ρ
  | .pass => atom (restart depth) a
  | .substitute b =>
    if Dispatch.maxDepth < depth + 1 then .error (.serializationLoop (depth + 1))
    else restart (depth + 1) b
  | .reject e => .error e

/-- What is written for an atom with some room left for nested dispatches. -/
def within (d : Dialect ρ) (options : Options) : (room : Nat) → (depth : Nat) → Atom ρ → Draft ρ
  | 0, _, _ => .error (.serializationLoop (Dispatch.maxNesting + 1))
  | room + 1, depth, a => after (within d options room) depth a (d.verdict options a)

end Draft

/-- What compiling a traversal writes. -/
def Dialect.draft (d : Dialect ρ) (t : Traversal ρ) : Draft ρ :=
  Draft.within d t.environment.options (Dispatch.maxNesting + 1) 0 (.value (.traversal t))

/-! ## Passes follow drafts -/

/-- The pass writes what the draft lists, and fails where the draft fails. -/
def Pass.Follows (mode : Mode) (pass : Pass) (draft : Draft ρ) : Prop :=
  ∀ o, match draft with
    | .ok ps => pass o = (.ok (), Piece.writeAll mode o ps)
    | .error e => (pass o).1 = .error e

namespace Pass.Follows

variable {mode : Mode}

theorem done : Pass.done.Follows mode (.ok [] : Draft ρ) := fun _ => rfl

theorem fail (e : Error) : (Pass.fail e).Follows mode (.error e : Draft ρ) := fun _ => rfl

theorem push (s : String) : (Pass.push s).Follows mode (Draft.fixed s : Draft ρ) := fun _ => rfl

theorem literal (b : Bindable ρ) :
    (Pass.write (·.literal mode b.val)).Follows mode (.ok [.value b] : Draft ρ) := fun _ => rfl

theorem andThen {a b : Pass} {x y : Draft ρ} (ha : a.Follows mode x) (hb : b.Follows mode y) :
    (a.andThen b).Follows mode (x.andThen y) := by
  intro o
  have hao := ha o
  rcases x with e | ps
  · -- a pass that fails ends the whole, whatever it has written by then
    rcases hpass : a o with ⟨r, o'⟩
    have hr : r = .error e := by simpa [hpass] using hao
    simp [Pass.andThen, hpass, hr]
  · have hbo := hb (Piece.writeAll mode o ps)
    rcases y with e | qs
    · simpa [Pass.andThen, hao] using hbo
    · simpa [Pass.andThen, hao, Piece.writeAll_append] using hbo

end Pass.Follows

namespace Encoding

variable {mode : Mode} {dispatch : Atom ρ → Pass} {draft : Atom ρ → Draft ρ}

theorem separated_follows (h : ∀ a, (dispatch a).Follows mode (draft a)) (mark : String)
    (separate : Bool) (atoms : List (Atom ρ)) :
    (separated mark dispatch separate atoms).Follows mode
      (Draft.separated mark draft separate atoms) := by
  induction atoms generalizing separate with
  | nil => exact Pass.Follows.done
  | cons a rest ih =>
    apply Pass.Follows.andThen
    · cases separate
      · exact Pass.Follows.done
      · exact Pass.Follows.push mark
    · exact (h a).andThen (ih true)

theorem step_follows (h : ∀ a, (dispatch a).Follows mode (draft a)) (s : Step ρ) :
    (step dispatch s).Follows mode (Draft.step draft s) := by
  apply (Pass.Follows.push s.name).andThen
  apply (Pass.Follows.push "(").andThen
  exact (separated_follows h ", " false _).andThen (Pass.Follows.push ")")

theorem steps_follows (h : ∀ a, (dispatch a).Follows mode (draft a)) (scope : Scope)
    (separate : Bool) (raw : List (Step ρ)) :
    (steps dispatch scope separate raw).Follows mode (Draft.steps draft scope separate raw) := by
  induction raw generalizing separate with
  | nil => exact Pass.Follows.done
  | cons s rest ih =>
    simp only [steps, Draft.steps]
    cases s.resolve scope with
    | error e => exact Pass.Follows.fail e
    | ok resolved => exact (separated_follows h "." separate _).andThen (ih _)

theorem value_follows (h : ∀ a, (dispatch a).Follows mode (draft a)) (v : Value ρ) :
    (value mode dispatch v).Follows mode (Draft.value draft v) := by
  cases v with
  | traversal t => exact (Pass.Follows.push t.graph).andThen (steps_follows h t.scope _ _)
  | key name => exact Pass.Follows.push _
  | token word => exact Pass.Follows.push word
  | member m => exact Pass.Follows.fail _
  | elementType t => exact Pass.Follows.fail _
  | _ => exact Pass.Follows.literal ⟨_, rfl⟩

theorem atom_follows (h : ∀ a, (dispatch a).Follows mode (draft a)) (a : Atom ρ) :
    (atom mode dispatch a).Follows mode (Draft.atom draft a) := by
  cases a with
  | step s => exact step_follows h s
  | value v => exact value_follows h v

end Encoding

namespace Dispatch

variable {mode : Mode}

/-- A chain of ready-made rules carries out the verdict of the topmost rule that has one. -/
theorem proceed_follows {restart : Nat → Atom ρ → Pass} {draft : Nat → Atom ρ → Draft ρ}
    (h : ∀ depth a, (restart depth a).Follows mode (draft depth a)) (depth : Nat)
    (rules : List (Rule ρ)) (hrules : ∀ rule ∈ rules, rule.isReady = true) (a : Atom ρ) :
    (proceed mode restart depth rules a).Follows mode
      (Draft.after draft depth a (Rule.firstVerdict mode.options a rules)) := by
  induction rules with
  | nil => exact Encoding.atom_follows (h depth) a
  | cons rule below ih =>
    have hbelow : (proceed mode restart depth below a).Follows mode
        (Draft.after draft depth a (Rule.firstVerdict mode.options a below)) := by
      apply ih
      intro r hr
      exact hrules r (List.mem_cons_of_mem _ hr)
    have hready := hrules rule List.mem_cons_self
    simp only [proceed, Rule.run_eq_follow mode _ a hready, Rule.firstVerdict]
    cases rule.verdict mode.options a with
    | pass => exact hbelow
    | reject e => exact Pass.Follows.fail e
    | substitute b =>
      simp only [Chain.follow, Draft.after]
      split
      · exact Pass.Follows.fail _
      · exact h (depth + 1) b

/-- Dispatching writes what the draft lists, and fails where the draft fails. -/
theorem within_follows (mode : Mode) {d : Dialect ρ} (hd : d.IsReady) (room depth : Nat)
    (a : Atom ρ) :
    (within d mode room depth a).Follows mode (Draft.within d mode.options room depth a) := by
  -- what is dispatched from here has less room, at a depth of its own
  induction room generalizing depth a with
  | zero => exact Pass.Follows.fail _
  | succ room ih => exact proceed_follows ih depth _ (hd.chain a.tag) a

end Dispatch

namespace Dialect

/-- The script that pieces amount to in a mode. -/
def script (mode : Mode) (ps : List (Piece ρ)) : Script := (Piece.writeAll mode {} ps).script

/-- A script is compiled by writing the draft in the mode. -/
theorem compile_eq_draft {d : Dialect ρ} (hd : d.IsReady) (t : Traversal ρ) (inlined : Bool) :
    d.compile t inlined = (d.draft t).map (script ⟨inlined, t.environment.options⟩) := by
  have h := Dispatch.within_follows ⟨inlined, t.environment.options⟩ hd
    (Dispatch.maxNesting + 1) 0 (.value (.traversal t)) {}
  simp only [compile, draft]
  cases hdraft : Draft.within d t.environment.options (Dispatch.maxNesting + 1) 0
      (.value (.traversal t)) with
  | ok ps =>
    simp only [hdraft] at h
    rw [h]
    rfl
  | error e =>
    simp only [hdraft] at h
    generalize Dispatch.within d _ _ _ _ _ = result at h ⊢
    rcases result with ⟨r, o⟩
    have hr : r = .error e := h
    rw [hr]
    rfl

/-! ## Ready-made dialects -/

theorem isReady_plain : (plain : Dialect ρ).IsReady := by
  intro layer hlayer
  simp [plain] at hlayer

theorem IsReady.withRules {d : Dialect ρ} (hd : d.IsReady) {rules : List (Tag × Rule ρ)}
    (hrules : ∀ layer ∈ rules, layer.2.isReady = true) : (d.withRules rules).IsReady :=
  List.forall_mem_append.mpr ⟨hd, hrules⟩

theorem IsReady.withStandard {d : Dialect ρ} (hd : d.IsReady) : d.withStandard.IsReady := by
  apply hd.withRules
  simp [standardRules, Rule.isReady]

theorem IsReady.withCosmos [Inhabited ρ] {d : Dialect ρ} (hd : d.IsReady) :
    d.withCosmos.IsReady := by
  apply hd.withRules
  simp [cosmosRules, Rule.isReady]

end Dialect

end Gremlin
