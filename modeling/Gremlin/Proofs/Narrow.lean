import Gremlin.Proofs.Cosmos
import Gremlin.Proofs.Modes

/-!
# Integers in parameters

CosmosDb takes no integers of more than 32 bits, and its rules narrow the 64-bit integers that
come to be written or turn them down. The members of an entity do not come to be written one by
one where the entity is bound as a whole, so no rule sees them: the parameters of a script for
CosmosDb hold no wide integer but those in the JSON forms of such entities, and those they do hold.

* `Draft.forall_of_atom`: what the encoder leaves to the mode is the atom itself, or comes from
  what has been dispatched;
* `Draft.not_long_of_within`: no 64-bit integer is left to the mode;
* `Dialect.exists_of_mem_parameters`: parameters come from the values of a draft and from nothing
  else;
* `Dialect.cosmos_bound_integers`: what that means for scripts for CosmosDb.
-/

namespace Gremlin

variable {ρ : Type}

/-! ## Integers in JSON values -/

namespace Json

mutual

/-- The integers in a JSON value, at any depth. -/
def integers : Json → List Int
  | .int n => [n]
  | .array items => itemIntegers items
  | .object fields => fieldIntegers fields
  | _ => []

def itemIntegers : List Json → List Int
  | [] => []
  | item :: rest => item.integers ++ itemIntegers rest

def fieldIntegers : List (String × Json) → List Int
  | [] => []
  | (_, value) :: rest => value.integers ++ fieldIntegers rest

end

/-- No integer in the JSON value has more than 32 bits. -/
def IsNarrow (json : Json) : Prop := ∀ n ∈ json.integers, -2147483648 ≤ n ∧ n ≤ 2147483647

instance (json : Json) : Decidable json.IsNarrow :=
  inferInstanceAs (Decidable (∀ n ∈ json.integers, -2147483648 ≤ n ∧ n ≤ 2147483647))

theorem isNarrow_int (n : Int32) : (Json.int n.toInt).IsNarrow := by
  intro m hm
  have hn : m = n.toInt := List.mem_singleton.mp hm
  have hmin : -2147483648 ≤ n.toInt := n.le_toInt
  have hmax : n.toInt < 2147483648 := n.toInt_lt
  omega

theorem isNarrow_ofDouble (x : Double) : (Json.ofDouble x).IsNarrow := by
  intro n hn
  unfold Json.ofDouble at hn
  split at hn <;> contradiction

end Json

/-- A value that is left to the mode is narrow, or a 64-bit integer, or an entity. -/
theorem Bindable.isNarrow_toJson (b : Bindable ρ) :
    b.val.toJson.IsNarrow ∨ (∃ n, b.val = .long n) ∨ ∃ e, b.val = .entity e := by
  rcases b with ⟨v, hv⟩
  cases v with
  | long n => exact Or.inr (Or.inl ⟨n, rfl⟩)
  | entity e => exact Or.inr (Or.inr ⟨e, rfl⟩)
  | int n =>
    rw [Value.toJson]
    exact Or.inl (Json.isNarrow_int n)
  | float x =>
    rw [Value.toJson]
    exact Or.inl (Json.isNarrow_ofDouble x)
  | null | bool | text =>
    rw [Value.toJson]
    refine Or.inl ?_
    intro n hn
    contradiction
  | key | token | member | elementType | traversal => simp [Value.isBindable, Value.isLiteral] at hv

/-! ## What is left to the mode -/

namespace Draft

section Encoding

variable {dispatch : Atom ρ → Draft ρ} {onValue : Bindable ρ → Prop}

/-- The encoder leaves nothing to the mode but the atom at hand and what dispatching gives. -/
theorem forall_of_atom
    (h : ∀ a ps, dispatch a = .ok ps → ∀ b, .value b ∈ ps → onValue b) {a : Atom ρ}
    {ps : List (Piece ρ)} (ha : atom dispatch a = .ok ps) :
    ∀ b, .value b ∈ ps → a = .value b.val ∨ onValue b := by
  intro b hb
  cases a with
  | step s =>
    rw [atom, step_eq] at ha
    obtain ⟨groups, hgroups, rfl⟩ := map_eq_ok_iff.mp ha
    have hmem : .value b ∈ Piece.separated ", " false groups := by simpa using hb
    obtain ⟨group, hgroup, hvalue⟩ := Piece.value_mem_separated.mp hmem
    obtain ⟨v, _, hv⟩ := exists_of_mem_right (mapM_eq_ok_iff.mp hgroups) hgroup
    exact Or.inr (h _ _ hv b hvalue)
  | value v =>
    cases v with
    | traversal t =>
      change traversal dispatch t = .ok ps at ha
      rw [traversal_eq] at ha
      obtain ⟨groups, hgroups, rfl⟩ := map_eq_ok_iff.mp ha
      have hmem : .value b ∈ Piece.separated "." (!t.graph.isEmpty) groups.flatten := by
        simpa using hb
      obtain ⟨written, hwritten, hvalue⟩ := Piece.value_mem_separated.mp hmem
      obtain ⟨group, hgroup, hstep⟩ := List.mem_flatten.mp hwritten
      -- the text comes from one of the steps that a step of the traversal resolves to
      obtain ⟨s, _, hs⟩ := exists_of_mem_right (mapM_eq_ok_iff.mp hgroups) hgroup
      obtain ⟨rs, _, hrs⟩ := bind_eq_ok_iff.mp hs
      obtain ⟨r, _, hr⟩ := exists_of_mem_right (mapM_eq_ok_iff.mp hrs) hstep
      exact Or.inr (h _ _ hr b hvalue)
    | key | token =>
      injection ha with ha
      rw [← ha] at hb
      simp at hb
    | member | elementType => contradiction
    | _ =>
      injection ha with ha
      rw [← ha] at hb
      have heq : b = _ := Piece.value.inj (List.mem_singleton.mp hb)
      exact Or.inl (by rw [heq])

end Encoding

/-- The rules for CosmosDb leave no 64-bit integer to the mode. -/
theorem not_long_of_within [Inhabited ρ] {options : Options} {room depth : Nat} {a : Atom ρ}
    {ps : List (Piece ρ)} (h : within Dialect.cosmos options room depth a = .ok ps) :
    ∀ b : Bindable ρ, .value b ∈ ps → ∀ n, b.val ≠ .long n := by
  -- for all depths, since a narrowed integer is dispatched one deeper
  induction room generalizing depth a ps with
  | zero => contradiction
  | succ room ih =>
    rw [within] at h
    cases hverdict : Dialect.cosmos.verdict options a with
    | pass =>
      rw [hverdict] at h
      intro b hb n hlong
      rcases forall_of_atom (fun a qs hqs => ih hqs) h b hb with ha | hnot
      · -- the encoder is not asked for a 64-bit integer
        rw [ha, hlong, Dialect.cosmos_verdict_value, ValueRule.verdict] at hverdict
        split at hverdict <;> contradiction
      · exact hnot n hlong
    | reject e =>
      rw [hverdict] at h
      contradiction
    | substitute b =>
      rw [hverdict] at h
      simp only [after] at h
      split at h
      · contradiction
      · exact ih h

end Draft

/-! ## What is bound -/

namespace Piece

/-- Nothing is bound but the values among the pieces. -/
theorem exists_of_mem_writeAll {mode : Mode} (hmode : mode.inlined = false) {o : Output}
    {ps : List (Piece ρ)} {entry : Parameters.Key × Json}
    (h : entry ∈ (writeAll mode o ps).parameters.bound) :
    entry ∈ o.parameters.bound ∨ ∃ b, .value b ∈ ps ∧ entry.2 = b.val.toJson := by
  induction ps generalizing o with
  | nil => exact Or.inl h
  | cons p rest ih =>
    rw [writeAll_cons] at h
    rcases ih h with hfirst | ⟨b, hb, hjson⟩
    · cases p with
      | fixed s => exact Or.inl hfirst
      | value b =>
        rw [write_value hmode] at hfirst
        rcases Parameters.mem_of_mem_bind hfirst with hold | hnew
        · exact Or.inl hold
        · exact Or.inr ⟨b, List.mem_cons_self, by rw [hnew]⟩
    · exact Or.inr ⟨b, List.mem_cons_of_mem _ hb, hjson⟩

end Piece

namespace Dialect

variable (options : Options) {ps : List (Piece ρ)}

/-- A parameter comes from a value among the pieces. -/
theorem exists_of_mem_parameters {row : String × Json}
    (h : row ∈ (script ⟨false, options⟩ ps).parameters) :
    ∃ b, .value b ∈ ps ∧ row.2 = b.val.toJson := by
  obtain ⟨n, hn, hrow⟩ := List.mem_mapIdx.mp h
  have hentry := List.getElem_mem hn
  rcases Piece.exists_of_mem_writeAll rfl hentry with hempty | ⟨b, hb, hjson⟩
  · contradiction
  · refine ⟨b, hb, ?_⟩
    rw [← hrow, ← hjson]

/-- A value among the pieces is the value of a parameter. -/
theorem exists_parameter_of_mem {b : Bindable ρ} (h : .value b ∈ ps) :
    ∃ row ∈ (script ⟨false, options⟩ ps).parameters, row.2 = b.val.toJson := by
  obtain ⟨name, _, hlookup, _⟩ := exists_names_of_bound options ps
  obtain ⟨before, after, hrows, _⟩ := List.lookup_eq_some_iff.mp (hlookup b h)
  refine ⟨(name b.val, b.val.toJson), ?_, rfl⟩
  rw [hrows]
  exact List.mem_append_right _ List.mem_cons_self

/-! ## Scripts for CosmosDb -/

/-- The integers in the parameters of a script for CosmosDb. A parameter has no integer of more
than 32 bits in it, at any depth, or is the JSON form of an entity that was left to the mode as a
whole. So all parameters are narrow exactly if the JSON forms of these entities are. -/
theorem cosmos_bound_integers [Inhabited ρ] {t : Traversal ρ} {script : Script}
    (h : cosmos.compile t false = .ok script) :
    ∃ pieces, cosmos.draft t = .ok pieces ∧
      (∀ row ∈ script.parameters, row.2.IsNarrow ∨
        ∃ e, .value (.entity e) ∈ pieces ∧ row.2 = e.toJson) ∧
      ((∀ row ∈ script.parameters, row.2.IsNarrow) ↔
        ∀ e, .value (.entity e) ∈ pieces → e.toJson.IsNarrow) := by
  have hready : (cosmos : Dialect ρ).IsReady := isReady_plain.withStandard.withCosmos
  rw [compile_eq_draft hready] at h
  obtain ⟨pieces, hpieces, rfl⟩ := map_eq_ok_iff.mp h
  have hrows : ∀ row ∈ (Dialect.script ⟨false, t.environment.options⟩ pieces).parameters,
      row.2.IsNarrow ∨ ∃ e, .value (.entity e) ∈ pieces ∧ row.2 = e.toJson := by
    intro row hrow
    obtain ⟨b, hb, hjson⟩ := exists_of_mem_parameters t.environment.options hrow
    rcases b.isNarrow_toJson with hnarrow | ⟨n, hlong⟩ | ⟨e, hentity⟩
    · rw [hjson]
      exact Or.inl hnarrow
    · exact absurd hlong (Draft.not_long_of_within hpieces b hb n)
    · have hbe : b = .entity e := Subtype.ext hentity
      rw [hbe] at hb
      rw [hjson, hentity, Value.toJson]
      exact Or.inr ⟨e, hb, rfl⟩
  refine ⟨pieces, hpieces, hrows, ?_⟩
  constructor
  · intro hall e he
    obtain ⟨row, hrow, hjson⟩ := exists_parameter_of_mem t.environment.options he
    have hnarrow := hall row hrow
    rw [hjson, Value.toJson] at hnarrow
    exact hnarrow
  · intro hentities row hrow
    rcases hrows row hrow with hnarrow | ⟨e, he, hjson⟩
    · exact hnarrow
    · rw [hjson]
      exact hentities e he

/-- A traversal of one step. -/
def oneStep (s : Step Unit) : Traversal Unit := ⟨"g", .ofList [s], default, 0, ∅⟩

/-- An entity with one integer. -/
def tally (n : Int64) : Entity Unit := ⟨"P", [("big", .long n)]⟩

/-- Injected next to a 64-bit integer that fits, an entity with a narrow integer leaves all
parameters narrow. -/
theorem cosmos_bound_integers_tally :
    ∃ script, cosmos.compile (oneStep (Step.inject [.long 5, .entity (tally 7)])) false =
        .ok script ∧
      script.text = "g.inject(P0, P1)" ∧ ∀ row ∈ script.parameters, row.2.IsNarrow := by
  have hcompile : cosmos.compile (oneStep (Step.inject [.long 5, .entity (tally 7)])) false =
      .ok ⟨"g.inject(P0, P1)", [("P0", .int 5), ("P1", .object [("big", .int 7)])]⟩ := by
    decide +kernel
  have hdraft : cosmos.draft (oneStep (Step.inject [.long 5, .entity (tally 7)])) =
      .ok [.fixed "g", .fixed ".", .fixed "inject", .fixed "(", .value (.int 5), .fixed ", ",
        .value (.entity (tally 7)), .fixed ")"] := rfl
  obtain ⟨pieces, hpieces, _, hnarrow⟩ := cosmos_bound_integers hcompile
  refine ⟨_, hcompile, rfl, hnarrow.mpr ?_⟩
  intro e he
  rw [hdraft] at hpieces
  injection hpieces with hpieces
  have hvalue : Bindable.entity e = .int 5 ∨ Bindable.entity e = .entity (tally 7) := by
    simpa [← hpieces] using he
  rcases hvalue with hint | htally
  · injection hint with hint
    contradiction
  · injection htally with hvalue
    injection hvalue with htally
    rw [htally]
    decide +kernel

/-- An entity that is injected is bound as a whole, with its integer, however wide. Added as a
vertex it is spread, and the integer is turned down. -/
theorem cosmos_binds_wide_entity :
    (∃ script, cosmos.compile (oneStep (Step.inject [.entity (tally 2147483648)])) false =
        .ok script ∧
      script = ⟨"g.inject(P0)", [("P0", .object [("big", .int 2147483648)])]⟩ ∧
      ∃ row ∈ script.parameters, ¬ row.2.IsNarrow) ∧
    cosmos.compile (oneStep (Step.addV (tally 2147483648))) false =
      .error (.valueRange "Long" 2147483648 2147483647) := by
  constructor
  · exact ⟨_, by decide +kernel, rfl, _, List.mem_singleton_self _, by decide +kernel⟩
  · decide +kernel

end Dialect

end Gremlin
