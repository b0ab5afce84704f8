import Gremlin.Proofs.Draft
import Gremlin.Proofs.Parameters

/-!
# The two modes

Inlining literals and binding them are two ways to write one draft. In the first every value of
the draft stands in the text as itself and nothing is bound; in the second it stands there under
its name, and the parameters hold its JSON form. The pass that binds goes through the pieces one
by one; what carries it is that a name, once given out, does not change (`Bound`).

`compile_modes_agree` says so for every dialect made of the ready-made sets of rules.
-/

namespace Gremlin

variable {ρ : Type}

/-! ## Stacks of ready-made rules -/

/-- A ready-made set of rules. -/
inductive RuleSet where
  | standard
  | cosmos
deriving DecidableEq

namespace Dialect

variable [Inhabited ρ]

/-- Puts a set of rules on top of a dialect. -/
def withSet (d : Dialect ρ) : RuleSet → Dialect ρ
  | .standard => d.withStandard
  | .cosmos => d.withCosmos

/-- The sets of rules on top of each other, in order, and nothing below them. -/
def stacked (sets : List RuleSet) : Dialect ρ := sets.foldl withSet plain

theorem IsReady.withSet {d : Dialect ρ} (hd : d.IsReady) (set : RuleSet) :
    (d.withSet set).IsReady := by
  cases set with
  | standard => exact hd.withStandard
  | cosmos => exact hd.withCosmos

theorem IsReady.foldl_withSet {d : Dialect ρ} (hd : d.IsReady) (sets : List RuleSet) :
    (sets.foldl Dialect.withSet d).IsReady := by
  induction sets generalizing d with
  | nil => exact hd
  | cons set rest ih => exact ih (hd.withSet set)

theorem isReady_stacked (sets : List RuleSet) : (stacked sets : Dialect ρ).IsReady :=
  isReady_plain.foldl_withSet sets

end Dialect

/-! ## Writing a draft -/

namespace Piece

/-- Inlining adds the text of the pieces, with each value as itself, and binds nothing. -/
theorem writeAll_inlined {mode : Mode} (hmode : mode.inlined = true) (o : Output)
    (ps : List (Piece ρ)) :
    writeAll mode o ps = ⟨o.text ++ text Output.inlineText ps, o.parameters⟩ := by
  induction ps generalizing o with
  | nil => simp [text]
  | cons p rest ih =>
    rw [writeAll_cons, ih]
    cases p with
    | fixed s => simp [write, Output.push, text, String.append_assoc]
    | value b => simp [write, Output.literal, hmode, Output.push, text, String.append_assoc]

/-- A value is bound unless literals are inlined. -/
theorem write_value {mode : Mode} (hmode : mode.inlined = false) (o : Output) (b : Bindable ρ) :
    (Piece.value b).write mode o = o.bind b.val := by
  simp [write, Output.literal, hmode]

/-- How an output stands to the one from which binding the values of pieces leads to it. -/
structure Bound (ps : List (Piece ρ)) (o o' : Output) : Prop where
  within : o.parameters.Within o'.parameters
  wellFormed : o.parameters.WellFormed → o'.parameters.WellFormed
  holds : ∀ b, .value b ∈ ps → o'.parameters.Holds b.val
  text : o'.text = o.text ++ text o'.parameters.name ps

theorem Bound.nil (o : Output) : Bound ([] : List (Piece ρ)) o o where
  within := Parameters.Within.refl _
  wellFormed h := h
  holds b hb := by simp at hb
  text := by simp [Piece.text]

theorem Bound.fixed {ps : List (Piece ρ)} {o o' : Output} (s : String)
    (h : Bound ps (o.push s) o') : Bound (.fixed s :: ps) o o' where
  within := h.within
  wellFormed := h.wellFormed
  holds b hb := h.holds b (by simpa using hb)
  text := by simpa [Piece.text, Output.push, String.append_assoc] using h.text

/-- A value that is bound first has the name under which it is written ever after. -/
theorem Bound.value {ps : List (Piece ρ)} {o o' : Output} (b : Bindable ρ)
    (h : Bound ps (o.bind b.val) o') : Bound (.value b :: ps) o o' := by
  have hheld : (o.bind b.val).parameters.Holds b.val := Parameters.holds_bind _ _
  -- the name given out here is the name in the end
  have hname : o'.parameters.name b.val = o.parameters.name b.val := by
    rw [Parameters.name_of_within h.within hheld]
    exact Parameters.name_bind _ _
  constructor
  · exact (Parameters.within_bind _ _).trans h.within
  · intro ho
    exact h.wellFormed (ho.bind b.val)
  · intro c hc
    rcases List.mem_cons.mp hc with heq | hrest
    · injection heq with heq
      rw [heq]
      exact hheld.of_within h.within
    · exact h.holds c hrest
  · have htext : (o.bind b.val).text = o.text ++ o.parameters.name b.val := by
      rw [← Parameters.bind_fst]
      rfl
    rw [h.text, htext, Piece.text, hname, String.append_assoc]

theorem bound_writeAll {mode : Mode} (hmode : mode.inlined = false) (o : Output)
    (ps : List (Piece ρ)) : Bound ps o (writeAll mode o ps) := by
  induction ps generalizing o with
  | nil => exact Bound.nil o
  | cons p rest ih =>
    rw [writeAll_cons]
    cases p with
    | fixed s => exact (ih _).fixed s
    | value b =>
      rw [write_value hmode]
      exact (ih _).value b

end Piece

namespace Dialect

theorem script_inlined (options : Options) (ps : List (Piece ρ)) :
    script ⟨true, options⟩ ps = ⟨Piece.text Output.inlineText ps, []⟩ := by
  have hwritten := Piece.writeAll_inlined (show (⟨true, options⟩ : Mode).inlined = true from rfl)
    {} ps
  simp [script, hwritten, Output.script, Parameters.rows]

/-- In a script with bound parameters there is a name for every value such that the text is that
of the draft under these names, the parameters hold the JSON form of each value under its name,
and values share a name exactly when they are written alike. -/
theorem exists_names_of_bound (options : Options) (ps : List (Piece ρ)) :
    ∃ name : Value ρ → String,
      (script ⟨false, options⟩ ps).text = Piece.text name ps ∧
      (∀ b, .value b ∈ ps →
        (script ⟨false, options⟩ ps).parameters.lookup (name b.val) = some b.val.toJson) ∧
      ∀ b c, .value b ∈ ps → .value c ∈ ps →
        (name b.val = name c.val ↔ b.val.Alike c.val) := by
  have h := Piece.bound_writeAll (show (⟨false, options⟩ : Mode).inlined = false from rfl) {} ps
  have hwf := h.wellFormed Parameters.wellFormed_empty
  refine ⟨(Piece.writeAll ⟨false, options⟩ {} ps).parameters.name, ?_, ?_, ?_⟩
  · simpa [script, Output.script] using h.text
  · intro b hb
    exact Parameters.lookup_name hwf (h.holds b hb)
  · intro b c hb hc
    exact Parameters.name_eq_iff (h.holds b hb) (h.holds c hc)

/-- A dialect made of ready-made sets of rules fails alike in both modes, or compiles in both.
Then nothing is bound where literals are inlined, and there is one draft, the fixed texts and
the values that reach the encoder in the order of dispatch, of which the inlined text shows
every value as itself and the other text shows its name. The parameters hold the JSON form of
each value under its name, and two values have one name exactly when they are written alike. -/
theorem compile_modes_agree [Inhabited ρ] (sets : List RuleSet) (t : Traversal ρ) :
    match (stacked sets).compile t true, (stacked sets).compile t false with
    | .error e, .error e' => e = e'
    | .ok inlined, .ok bound =>
      inlined.parameters = [] ∧
      ∃ (pieces : List (Piece ρ)) (name : Value ρ → String),
        (stacked sets).draft t = .ok pieces ∧
        inlined.text = Piece.text Output.inlineText pieces ∧
        bound.text = Piece.text name pieces ∧
        (∀ b, .value b ∈ pieces →
          bound.parameters.lookup (name b.val) = some b.val.toJson) ∧
        ∀ b c, .value b ∈ pieces → .value c ∈ pieces →
          (name b.val = name c.val ↔ b.val.Alike c.val)
    | _, _ => False := by
  rw [compile_eq_draft (isReady_stacked sets), compile_eq_draft (isReady_stacked sets)]
  cases hdraft : (stacked sets).draft t with
  | error e => rfl
  | ok pieces =>
    obtain ⟨name, htext, hlookup, hnames⟩ :=
      exists_names_of_bound t.environment.options pieces
    have hinlined := script_inlined t.environment.options pieces
    simp only [Except.map]
    rw [hinlined]
    exact ⟨rfl, pieces, name, rfl, rfl, htext, hlookup, hnames⟩

end Dialect

end Gremlin
