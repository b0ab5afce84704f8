import Gremlin.Proofs.Identifiers
import Gremlin.Proofs.Marks
import Gremlin.Proofs.Starts

/-!
# Labels drawn and minted

Every label that is minted is drawn from the sequence of the family of a traversal.

1. `Supply.Draws`: between two supplies a family draws the next labels of its sequence, and this
   composes;
2. `Supply.HasDrawn`: since it was opened a family has drawn some labels and no others;
3. `Call.run_mints`: a call mints what its traversal's family draws, also where a nested program
   mints or a call fails, and the traversal that it makes is of the same family;
4. `Source.prepared_drawn`: strategies that only transform draw nothing, so a start traversal is of
   a family that has drawn no label.
-/

namespace Gremlin

variable {ρ : Type}

/-! ## Drawing labels -/

namespace Supply

/-- The next labels of a family that has drawn `count` labels. -/
def labelsFrom (count : UInt64) (n : Nat) : List String :=
  (List.range n).map fun k => identifier (count + .ofNat k).toNat

/-- Between two supplies the family draws the labels, which are the next ones of its sequence. -/
def Draws (family : Nat) (before : Supply) (labels : List String) (after : Supply) : Prop :=
  ∃ count, before.drawn[family]? = some count ∧ labels = labelsFrom count labels.length ∧
    after.drawn[family]? = some (count + .ofNat labels.length)

theorem labelsFrom_add (count : UInt64) (m n : Nat) :
    labelsFrom count (m + n) = labelsFrom count m ++ labelsFrom (count + .ofNat m) n := by
  simp [labelsFrom, List.range_add, UInt64.add_assoc, Function.comp_def]

/-- Up to as many as the counter can tell apart, the labels of a new family are the first
identifiers. -/
theorem labelsFrom_zero {n : Nat} (h : n ≤ 2 ^ 64) :
    labelsFrom 0 n = (List.range n).map identifier := by
  apply List.map_congr_left
  intro k hk
  -- the counter has not started over
  have hsmall : k < 2 ^ 64 := Nat.lt_of_lt_of_le (List.mem_range.mp hk) h
  rw [UInt64.zero_add, UInt64.toNat_ofNat_of_lt' hsmall]

variable {family : Nat} {before between after : Supply} {labels more : List String}

theorem Draws.opened (h : Draws family before labels after) : family < after.drawn.size := by
  obtain ⟨_, _, _, hafter⟩ := h
  exact (Array.getElem?_eq_some_iff.mp hafter).1

/-- A family draws nothing while its count stays. -/
theorem Draws.of_eq (hopened : family < before.drawn.size)
    (h : after.drawn[family]? = before.drawn[family]?) : Draws family before [] after := by
  have hcount : before.drawn[family]? = some before.drawn[family] :=
    Array.getElem?_eq_getElem hopened
  refine ⟨before.drawn[family], hcount, rfl, ?_⟩
  rw [h, hcount]
  simp

theorem Draws.trans (hfirst : Draws family before labels between)
    (hsecond : Draws family between more after) : Draws family before (labels ++ more) after := by
  obtain ⟨count, hbefore, hlabels, hbetween⟩ := hfirst
  obtain ⟨count', hbetween', hmore, hafter⟩ := hsecond
  have hcount : count' = count + .ofNat labels.length := by
    rw [hbetween] at hbetween'
    injection hbetween' with h
    exact h.symm
  rw [hcount] at hmore hafter
  refine ⟨count, hbefore, ?_, ?_⟩
  · rw [List.length_append, labelsFrom_add, ← hlabels, ← hmore]
  · rw [hafter, List.length_append, UInt64.ofNat_add, UInt64.add_assoc]

/-- Since it was opened the family has drawn the labels, and no others. -/
structure HasDrawn (family : Nat) (supply : Supply) (labels : List String) : Prop where
  inOrder : labels = labelsFrom 0 labels.length
  count : supply.drawn[family]? = some (.ofNat labels.length)

theorem HasDrawn.opened (h : HasDrawn family before labels) : family < before.drawn.size :=
  (Array.getElem?_eq_some_iff.mp h.count).1

theorem HasDrawn.append (h : HasDrawn family before labels)
    (hmore : Draws family before more after) : HasDrawn family after (labels ++ more) := by
  obtain ⟨count, hbefore, hlabels, hafter⟩ := hmore
  have hcount : count = .ofNat labels.length := by
    rw [h.count] at hbefore
    injection hbefore with hcount
    exact hcount.symm
  rw [hcount] at hlabels hafter
  constructor
  · rw [List.length_append, labelsFrom_add, UInt64.zero_add, ← hlabels, ← h.inOrder]
  · rw [hafter, List.length_append, UInt64.ofNat_add]

/-- Drawing a label is drawing the next one. -/
theorem draws_drawLabel (hopened : family < before.drawn.size) :
    Draws family before [(drawLabel family before).1] (drawLabel family before).2 := by
  have hcount : before.drawn[family]? = some before.drawn[family] :=
    Array.getElem?_eq_getElem hopened
  refine ⟨before.drawn[family], hcount, ?_, ?_⟩
  · simp [drawLabel, labelsFrom, hopened]
  · simp [drawLabel, Array.getElem?_modify, hcount]

end Supply

/-! ## Labels that calls mint -/

namespace Call

/-- From a bench to a result, the family draws the labels; a traversal that results is of that
family. -/
structure Mints (family : Nat) (before : Bench) (labels : List String)
    (result : Except Fault (Traversal ρ) × Bench) : Prop where
  draws : before.supply.Draws family labels result.2.supply
  family : ∀ t, result.1 = .ok t → t.family = family

section Family

variable {family : Nat} {kept : String → Option (Traversal ρ)} {t : Traversal ρ} {bench : Bench}

/-- A traversal of the family that is there already. -/
theorem Mints.of_ok (ht : t.family = family) (hopened : family < bench.supply.drawn.size) :
    Mints family bench [] (.ok t, bench) := by
  refine ⟨.of_eq hopened rfl, ?_⟩
  intro t' h
  injection h with h
  rw [← h]
  exact ht

theorem Mints.of_error (hopened : family < bench.supply.drawn.size) (fault : Fault) :
    Mints family bench [] ((.error fault, bench) : Except Fault (Traversal ρ) × Bench) := by
  refine ⟨.of_eq hopened rfl, ?_⟩
  intro t' h
  contradiction

theorem mints_append (kept : String → Option (Traversal ρ)) {bench : Bench}
    (ht : t.family = family) (hopened : family < bench.supply.drawn.size) (step : Step ρ) :
    Mints family bench [] (run kept t (.append step) bench) := by
  refine ⟨.of_eq hopened rfl, ?_⟩
  intro t' h
  rw [run_append] at h
  injection h with h
  rw [← h]
  exact ht

/-- Labels that are drawn before come first. -/
theorem Mints.after {before : Bench} {labels more : List String}
    {result : Except Fault (Traversal ρ) × Bench} (hresult : Mints family bench more result)
    (hbefore : before.supply.Draws family labels bench.supply) :
    Mints family before (labels ++ more) result :=
  ⟨hbefore.trans hresult.draws, hresult.family⟩

mutual

/-- A call on a traversal of a family, with traversals of that family at hand. -/
theorem run_mints (hkept : ∀ name t, kept name = some t → t.family = family)
    {t : Traversal ρ} {bench : Bench} (ht : t.family = family)
    (hopened : family < bench.supply.drawn.size) (call : Call ρ) :
    Mints family bench (minted kept t bench call) (run kept t call bench) := by
  cases call with
  | append step => exact mints_append kept ht hopened step
  | nest step body =>
    have hbody := runAll_mints hkept (t := t.toAnonymous) ht hopened body
    rw [run_nest, minted]
    rcases hrun : runAll kept t.toAnonymous body bench with ⟨fault | inner, after⟩
    · rw [hrun] at hbody
      exact ⟨hbody.draws, by simp⟩
    · rw [hrun] at hbody
      -- the step with the nested traversal mints nothing more
      have happend := mints_append kept ht hbody.draws.opened
        ⟨step, [.traversal inner]⟩
      simpa using happend.after hbody.draws
  | mark name =>
    have hdraws := Supply.draws_drawLabel hopened
    rw [run_mark, minted, ht]
    -- the label is drawn first, then put on the traversal
    let marked : Bench := ⟨(Supply.drawLabel family bench.supply).2,
      bench.labels.insert name (Supply.drawLabel family bench.supply).1⟩
    have hmarked : family < marked.supply.drawn.size := hdraws.opened
    exact (mints_append kept ht hmarked _).after hdraws
  | select name =>
    rw [run_select]
    cases bench.labels[name]? with
    | none => exact .of_error hopened _
    | some label => exact mints_append kept ht hopened _
  | anonymous =>
    rw [run_anonymous]
    exact .of_ok ht hopened
  | wrap step =>
    rw [run_wrap]
    have hanonymous : t.toAnonymous.family = family := ht
    exact mints_append kept hanonymous hopened _
  | mapMember expression name =>
    rw [run_mapMember, Traversal.mapMember]
    cases expression.member? with
    | none => exact .of_error hopened _
    | some m => exact .of_ok (t := { t with mappings := t.mappings.insert m name }) ht hopened
  | replaceEnvironment environment =>
    rw [run_replaceEnvironment]
    exact .of_ok ht hopened
  | resume name =>
    rw [run_resume]
    cases hname : kept name with
    | none => exact .of_error hopened _
    | some other => exact .of_ok (hkept name other hname) hopened
  | refused fault =>
    rw [run_refused]
    exact .of_error hopened fault

theorem runAll_mints (hkept : ∀ name t, kept name = some t → t.family = family)
    {t : Traversal ρ} {bench : Bench} (ht : t.family = family)
    (hopened : family < bench.supply.drawn.size) (calls : List (Call ρ)) :
    Mints family bench (mintedAll kept t bench calls) (runAll kept t calls bench) := by
  cases calls with
  | nil =>
    rw [runAll_nil, mintedAll]
    exact .of_ok ht hopened
  | cons call rest =>
    have hcall := run_mints hkept ht hopened call
    rw [runAll_cons, mintedAll]
    rcases hrun : run kept t call bench with ⟨fault | t', after⟩
    · rw [hrun] at hcall
      rw [List.append_nil]
      exact ⟨hcall.draws, by simp⟩
    · rw [hrun] at hcall
      have ht' : t'.family = family := hcall.family t' rfl
      exact (runAll_mints hkept ht' hcall.draws.opened rest).after hcall.draws

end

end Family

/-! ### Programs that mint nothing -/

mutual

/-- The call mints no label, and no call of a nested program does. -/
def isQuiet : Call ρ → Bool
  | mark _ => false
  | nest _ body => areQuiet body
  | _ => true

def areQuiet : List (Call ρ) → Bool
  | [] => true
  | call :: rest => call.isQuiet && areQuiet rest

end

mutual

theorem minted_eq_nil (kept : String → Option (Traversal ρ)) (t : Traversal ρ) (bench : Bench)
    {call : Call ρ} (h : call.isQuiet = true) : minted kept t bench call = [] := by
  cases call with
  | mark name => contradiction
  | nest step body => exact mintedAll_eq_nil kept t.toAnonymous bench h
  | _ => rfl

theorem mintedAll_eq_nil (kept : String → Option (Traversal ρ)) (t : Traversal ρ) (bench : Bench)
    {calls : List (Call ρ)} (h : areQuiet calls = true) : mintedAll kept t bench calls = [] := by
  cases calls with
  | nil => rfl
  | cons call rest =>
    rw [areQuiet, Bool.and_eq_true] at h
    rw [mintedAll, minted_eq_nil kept t bench h.1, List.nil_append]
    rcases run kept t call bench with ⟨fault | t', after⟩
    · rfl
    · exact mintedAll_eq_nil kept t' after h.2

end

end Call

/-! ## Strategies that only transform -/

namespace Strategy

/-- The strategy makes a traversal of the family of the one that it is given, and draws none of
its labels. -/
def IsQuiet (strategy : Strategy) : Prop :=
  ∀ (t : Traversal Pipeline) (supply : Supply), t.family < supply.drawn.size →
    (strategy.effect.apply t supply).1.family = t.family ∧
    (strategy.effect.apply t supply).2.drawn[t.family]? = supply.drawn[t.family]?

/-- A program that mints nothing only transforms. -/
theorem isQuiet_ofProgram (name : String) {program : List (Call Pipeline)}
    (h : Call.areQuiet program = true) : IsQuiet ⟨name, .ofProgram program⟩ := by
  intro t supply hopened
  have hmints : Call.Mints t.family { supply } (Call.mintedAll (fun _ => none) t { supply } program)
      (Call.runAll (fun _ => none) t program { supply }) :=
    Call.runAll_mints (by simp) rfl hopened program
  rw [Call.mintedAll_eq_nil _ _ _ h] at hmints
  obtain ⟨count, hbefore, -, hafter⟩ := hmints.draws
  simp only [Effect.ofProgram]
  rcases hrun : Call.runAll (fun _ => none) t program { supply } with ⟨fault | t', after⟩
  · rw [hrun] at hafter
    exact ⟨rfl, by simpa [hbefore] using hafter⟩
  · rw [hrun] at hafter hmints
    exact ⟨hmints.family t' rfl, by simpa [hbefore] using hafter⟩

theorem prepare_of_isQuiet {strategies : List Strategy} (h : ∀ g ∈ strategies, g.IsQuiet)
    {t : Traversal Pipeline} {supply : Supply} (hopened : t.family < supply.drawn.size) :
    (prepare strategies t supply).1.family = t.family ∧
      (prepare strategies t supply).2.drawn[t.family]? = supply.drawn[t.family]? := by
  induction strategies generalizing t supply with
  | nil => exact ⟨rfl, rfl⟩
  | cons strategy rest ih =>
    obtain ⟨hfamily, hdrawn⟩ := h strategy List.mem_cons_self t supply hopened
    have hrest : ∀ g ∈ rest, g.IsQuiet := by
      intro g hg
      exact h g (List.mem_cons_of_mem _ hg)
    have hopened' : (strategy.effect.apply t supply).1.family <
        (strategy.effect.apply t supply).2.drawn.size := by
      rw [hfamily]
      rw [Array.getElem?_eq_getElem hopened] at hdrawn
      exact (Array.getElem?_eq_some_iff.mp hdrawn).1
    obtain ⟨hfamily', hdrawn'⟩ := ih hrest hopened'
    rw [prepare_cons]
    rw [hfamily] at hfamily' hdrawn'
    exact ⟨hfamily', hdrawn'.trans hdrawn⟩

end Strategy

namespace Source

/-- With strategies that only transform, the start traversal is of a family that has drawn no
label. -/
theorem prepared_drawn {s : Source} (h : ∀ g ∈ s.strategies, g.IsQuiet) (supply : Supply) :
    (s.prepared supply).2.drawn[(s.prepared supply).1.family]? = some 0 := by
  have hbare : (s.bare supply).1.family = supply.drawn.size ∧
      (s.bare supply).2.drawn = supply.drawn.push 0 := by
    rw [bare_eq]
    split <;> exact ⟨rfl, rfl⟩
  have hopened : (s.bare supply).1.family < (s.bare supply).2.drawn.size := by
    rw [hbare.1, hbare.2, Array.size_push]
    exact Nat.lt_succ_self _
  have hremaining : ∀ g ∈ Strategy.remaining s.excluded s.strategies, g.IsQuiet := by
    intro g hg
    exact h g (List.mem_of_mem_filter hg)
  obtain ⟨hfamily, hdrawn⟩ := Strategy.prepare_of_isQuiet hremaining hopened
  show (Strategy.prepare _ (s.bare supply).1 (s.bare supply).2).2.drawn[
    (Strategy.prepare _ (s.bare supply).1 (s.bare supply).2).1.family]? = some 0
  rw [hfamily, hdrawn, hbare.1, hbare.2, Array.getElem?_push_size]

end Source

theorem Traversal.family_addSteps (t : Traversal ρ) (steps : List (Step ρ)) (supply : Supply) :
    (t.addSteps steps supply).1.family = t.family := by
  induction steps generalizing t supply with
  | nil => rfl
  | cons step rest ih => exact ih _ _

theorem Traversal.drawn_addSteps (t : Traversal ρ) (steps : List (Step ρ)) (supply : Supply) :
    (t.addSteps steps supply).2.drawn = supply.drawn := by
  induction steps generalizing t supply with
  | nil => rfl
  | cons step rest ih => exact ih _ _

end Gremlin
