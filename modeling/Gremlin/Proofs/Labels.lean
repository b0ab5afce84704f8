import Mathlib.Data.List.Nodup
import Gremlin.Proofs.Minting

/-!
# Step labels

All traversals that come of one start draw their step labels from one sequence, on whichever
branch they are. So no label is minted twice:

1. `Family.IsSound.perform_start`, `Family.IsSound.perform_call`: one operation on the traversals
   obtained so far, or one start from their source, keeps them in one family that has drawn exactly
   the labels minted;
2. `Family.Keeps`: the labels kept under names are labels minted, each under one name;
3. `Family.Adds`: the labels that a call mints are those that it keeps and those of the marks that
   it makes, on whatever level (`Call.run_records`);
4. `Family.labels_distinct`: what that means for whole runs.
-/

namespace Gremlin

/-! ## Everything that comes of one start -/

/-- What has been derived from one start: the traversals obtained so far, the labels minted, in
order, and what deriving draws on. -/
structure Family where
  /-- The source to start from, if that is where the traversals come from. -/
  source : Option Source
  obtained : List (Traversal Pipeline)
  minted : List String
  ledger : Ledger
  /-- Labels by the names that calls keep them under. -/
  labels : Std.TreeMap String String

/-- One operation on what has been derived so far. -/
inductive Family.Operation where
  /-- Starts one more traversal from the source. -/
  | start (opening : Source.Opening)
  /-- Makes a call on a traversal obtained before, which may resume others by name. -/
  | call (number : Nat) (names : String → Option Nat) (call : Call Pipeline)

namespace Family

/-- What one new traversal begins. -/
def ofCreate (graph : String) (environment : Environment Pipeline) (ledger : Ledger) : Family :=
  let (t, supply) := Traversal.create graph environment ledger.supply
  ⟨none, [t], [], { ledger with supply }, ∅⟩

/-- What a source begins that nothing was started from. -/
def ofSource (s : Source) (ledger : Ledger) : Family := ⟨some s, [], [], ledger, ∅⟩

/-- The traversals that names stand for. -/
def kept (F : Family) (names : String → Option Nat) (name : String) :
    Option (Traversal Pipeline) :=
  (names name).bind fun number => F.obtained[number]?

/-- Carries out an operation; one that fails gives no traversal. -/
def perform (F : Family) : Operation → Family
  | .start opening =>
    match F.source with
    | none => F
    | some s =>
      match s.begin opening F.ledger with
      | (.ok (t, s), ledger) =>
        { F with source := some s, obtained := F.obtained ++ [t], ledger }
      | (.error _, ledger) => { F with ledger }
  | .call number names call =>
    match F.obtained[number]? with
    | none => F
    | some t =>
      let bench : Bench := ⟨F.ledger.supply, F.labels⟩
      let (outcome, after) := call.run (F.kept names) t bench
      { F with
        obtained := F.obtained ++ outcome.toOption.toList
        minted := F.minted ++ call.minted (F.kept names) t bench
        ledger := { F.ledger with supply := after.supply }
        labels := after.labels }

def performAll (F : Family) (operations : List Operation) : Family := operations.foldl perform F

/-- One new traversal, or a source that nothing was started from and whose strategies only
transform. -/
inductive IsRoot : Family → Prop where
  | created (graph : String) (environment : Environment Pipeline) (ledger : Ledger) :
    IsRoot (ofCreate graph environment ledger)
  | source (s : Source) (ledger : Ledger) (dormant : s.started = none)
    (quiet : ∀ strategy ∈ s.strategies, strategy.IsQuiet) : IsRoot (ofSource s ledger)

/-- All traversals are of one family, which has drawn the labels minted and no others. -/
structure IsRunning (family : Nat) (F : Family) : Prop where
  obtained : ∀ t ∈ F.obtained, t.family = family
  source : ∀ s, F.source = some s → ∃ t, s.started = some t ∧ t.family = family
  minted : F.ledger.supply.HasDrawn family F.minted

/-- Nothing has been derived yet, or everything is of one family. -/
inductive IsSound : Family → Prop where
  | dormant (s : Source) (ledger : Ledger) (labels : Std.TreeMap String String)
    (dormant : s.started = none) (quiet : ∀ strategy ∈ s.strategies, strategy.IsQuiet) :
    IsSound ⟨some s, [], [], ledger, labels⟩
  | running {F : Family} (family : Nat) (h : F.IsRunning family) : IsSound F

variable {F : Family}

theorem IsRoot.isSound (h : F.IsRoot) : F.IsSound := by
  cases h with
  | created graph environment ledger =>
    refine .running ledger.supply.drawn.size ⟨?_, ?_, rfl, ?_⟩
    · intro t ht
      rw [List.mem_singleton.mp ht]
    · intro s hs
      contradiction
    · exact Array.getElem?_push_size
  | source s ledger hdormant hquiet => exact .dormant s ledger ∅ hdormant hquiet

/-- A call adds what it makes and what it mints, and leaves its bench. -/
theorem perform_call_eq {number : Nat} {t : Traversal Pipeline}
    (hnumber : F.obtained[number]? = some t) (names : String → Option Nat) (call : Call Pipeline) :
    F.perform (.call number names call) =
      let bench : Bench := ⟨F.ledger.supply, F.labels⟩
      let result := call.run (F.kept names) t bench
      { F with
        obtained := F.obtained ++ result.1.toOption.toList
        minted := F.minted ++ call.minted (F.kept names) t bench
        ledger := { F.ledger with supply := result.2.supply }
        labels := result.2.labels } := by
  simp only [perform, hnumber]
  rfl

/-- One traversal more, if it is of the family. -/
theorem mem_family_append {family : Nat} {obtained new : List (Traversal Pipeline)}
    (hold : ∀ t ∈ obtained, t.family = family) (hnew : ∀ t ∈ new, t.family = family) :
    ∀ t ∈ obtained ++ new, t.family = family := by
  intro t ht
  rcases List.mem_append.mp ht with h | h
  · exact hold t h
  · exact hnew t h

/-- Starting keeps to the family, which is opened by the first start. -/
theorem IsSound.perform_start (h : F.IsSound) (opening : Source.Opening) :
    (F.perform (.start opening)).IsSound := by
  cases hsteps : opening.steps with
  | error e =>
    -- an opening that cannot be made changes nothing
    have hsame : F.perform (.start opening) = F := by
      rcases F with ⟨_ | s, obtained, minted, ledger, labels⟩
      · rfl
      · simp only [perform]
        rw [Source.begin_of_error ledger hsteps]
    rw [hsame]
    exact h
  | ok steps =>
    cases h with
    | dormant s ledger labels hdormant hquiet =>
      have hcount := Source.prepared_drawn hquiet ledger.supply
      refine .running (s.prepared ledger.supply).1.family ?_
      simp only [perform, Source.begin_of_dormant ledger hsteps hdormant]
      refine ⟨?_, ?_, rfl, ?_⟩
      · intro t ht
        rw [List.mem_singleton.mp ht]
        exact Traversal.family_addSteps _ _ _
      · intro s' hs'
        injection hs' with hs'
        rw [← hs']
        exact ⟨_, rfl, rfl⟩
      · rw [Traversal.drawn_addSteps]
        exact hcount
    | running family h =>
      rcases hsource : F.source with _ | s
      · simp only [perform, hsource]
        exact .running family h
      · obtain ⟨t, hstarted, ht⟩ := h.source s hsource
        simp only [perform, hsource, Source.begin_of_started F.ledger hsteps hstarted]
        refine .running family ⟨?_, ?_, h.minted.inOrder, ?_⟩
        · apply mem_family_append h.obtained
          intro t' ht'
          rw [List.mem_singleton.mp ht', Traversal.family_addSteps, ht]
        · intro s' hs'
          injection hs' with hs'
          rw [← hs']
          exact ⟨t, hstarted, ht⟩
        · rw [Traversal.drawn_addSteps]
          exact h.minted.count

/-- A call on a traversal obtained before keeps to the family. -/
theorem IsSound.perform_call (h : F.IsSound) (number : Nat) (names : String → Option Nat)
    (call : Call Pipeline) : (F.perform (.call number names call)).IsSound := by
  cases h with
  | dormant s ledger labels hdormant hquiet => exact .dormant s ledger labels hdormant hquiet
  | running family h =>
    rcases hnumber : F.obtained[number]? with _ | t
    · simp only [perform, hnumber]
      exact .running family h
    have ht : t.family = family := h.obtained t (List.mem_of_getElem? hnumber)
    have hkept : ∀ name t, F.kept names name = some t → t.family = family := by
      intro name t' hname
      obtain ⟨index, -, hindex⟩ := Option.bind_eq_some_iff.mp hname
      exact h.obtained t' (List.mem_of_getElem? hindex)
    have hmints : Call.Mints family ⟨F.ledger.supply, F.labels⟩
        (call.minted (F.kept names) t ⟨F.ledger.supply, F.labels⟩)
        (call.run (F.kept names) t ⟨F.ledger.supply, F.labels⟩) :=
      Call.run_mints hkept ht h.minted.opened call
    rw [perform_call_eq hnumber]
    refine .running family ⟨?_, h.source, h.minted.append hmints.draws⟩
    apply mem_family_append h.obtained
    intro t' ht'
    apply hmints.family
    -- there is a new traversal only if the call succeeds
    cases hrun : (call.run (F.kept names) t ⟨F.ledger.supply, F.labels⟩).1 with
    | error fault => simp [hrun, Except.toOption] at ht'
    | ok t'' =>
      have hsame : t' = t'' := by simpa [hrun, Except.toOption] using ht'
      rw [hsame]

theorem IsSound.performAll (h : F.IsSound) (operations : List Operation) :
    (F.performAll operations).IsSound := by
  induction operations generalizing F with
  | nil => exact h
  | cons operation rest ih =>
    cases operation with
    | start opening => exact ih (h.perform_start opening)
    | call number names call => exact ih (h.perform_call number names call)

/-- The labels minted are the first ones of the sequence of identifiers, up to as many as a counter
of 64 bits can tell apart. -/
theorem IsSound.minted_eq (h : F.IsSound) (hcount : F.minted.length ≤ 2 ^ 64) :
    F.minted = (List.range F.minted.length).map Supply.identifier := by
  cases h with
  | dormant s ledger labels => rfl
  | running family h =>
    have hdrawn := h.minted.inOrder
    rwa [Supply.labelsFrom_zero hcount] at hdrawn

theorem IsSound.nodup_minted (h : F.IsSound) (hcount : F.minted.length ≤ 2 ^ 64) :
    F.minted.Nodup := by
  have hinjective : Function.Injective Supply.identifier := by
    intro m n heq
    exact Supply.identifier_injective heq
  rw [h.minted_eq hcount]
  exact List.Nodup.map hinjective List.nodup_range

/-- A mark on a traversal obtained before gives one more traversal, which has the next label. -/
theorem IsSound.perform_mark (h : F.IsSound) {number : Nat} {t : Traversal Pipeline}
    (hnumber : F.obtained[number]? = some t) (hsmall : F.minted.length < 2 ^ 64)
    (names : String → Option Nat) (name : String) :
    ∃ t', (F.perform (.call number names (.mark name))).obtained = F.obtained ++ [t'] ∧
      t'.steps.toList = t.steps.toList ++ [.mark (Supply.identifier F.minted.length)] := by
  cases h with
  | dormant => contradiction
  | running family h =>
    have hlabel : (Supply.drawLabel t.family F.ledger.supply).1 =
        Supply.identifier F.minted.length := by
      have ht : t.family = family := h.obtained t (List.mem_of_getElem? hnumber)
      rw [ht, Supply.drawLabel, Array.getD_eq_getD_getElem?, h.minted.count, Option.getD_some,
        UInt64.toNat_ofNat_of_lt' hsmall]
    simp only [perform, hnumber, Call.run_mark, hlabel]
    exact ⟨_, rfl, StepList.toList_push t.steps _ _⟩

/-- Nothing is minted or kept but by a call on a traversal obtained before. -/
theorem perform_cases (F : Family) (operation : Operation) :
    (∃ number names call t, operation = .call number names call ∧
      F.obtained[number]? = some t) ∨
    (F.perform operation).minted = F.minted ∧ (F.perform operation).labels = F.labels := by
  cases operation with
  | start opening =>
    right
    simp only [perform]
    split
    · exact ⟨rfl, rfl⟩
    · split <;> exact ⟨rfl, rfl⟩
  | call number names call =>
    rcases hnumber : F.obtained[number]? with _ | t
    · right
      simp [perform, hnumber]
    · left
      exact ⟨number, names, call, t, rfl, hnumber⟩

theorem minted_prefix_perform (F : Family) (operation : Operation) :
    F.minted <+: (F.perform operation).minted := by
  rcases F.perform_cases operation with ⟨number, names, call, t, rfl, hnumber⟩ | ⟨hminted, -⟩
  · rw [perform_call_eq hnumber]
    exact List.prefix_append _ _
  · simp [hminted]

theorem minted_prefix_performAll (F : Family) (operations : List Operation) :
    F.minted <+: (F.performAll operations).minted := by
  induction operations generalizing F with
  | nil => exact List.prefix_rfl
  | cons operation rest ih => exact (F.minted_prefix_perform operation).trans (ih _)

theorem performAll_append (F : Family) (operations more : List Operation) :
    F.performAll (operations ++ more) = (F.performAll operations).performAll more :=
  List.foldl_append

/-! ### Labels that are kept -/

/-- The labels kept are labels minted, and no label is kept under two names. -/
structure Keeps (minted : List String) (labels : Std.TreeMap String String) : Prop where
  mem : ∀ {name label : String}, labels[name]? = some label → label ∈ minted
  unique : ∀ {name name' label : String},
    labels[name]? = some label → labels[name']? = some label → name = name'

theorem Keeps.append {minted : List String} {labels : Std.TreeMap String String}
    (h : Keeps minted labels) (more : List String) : Keeps (minted ++ more) labels := by
  constructor
  · intro name label hlabel
    exact List.mem_append_left more (h.mem hlabel)
  · exact h.unique

/-- A label that is new is kept under no other name. -/
theorem Keeps.insert {minted : List String} {labels : Std.TreeMap String String}
    (h : Keeps minted labels) (name : String) {label : String} (hnew : label ∉ minted) :
    Keeps (minted ++ [label]) (labels.insert name label) := by
  -- what is looked up is the new label, or was there before
  have hcases : ∀ {other found : String}, (labels.insert name label)[other]? = some found →
      (other = name ∧ found = label) ∨ (found ≠ label ∧ labels[other]? = some found) := by
    intro other found hfound
    rw [Std.TreeMap.getElem?_insert] at hfound
    by_cases heq : name = other
    · rw [if_pos (by simpa using heq)] at hfound
      injection hfound with hfound
      exact Or.inl ⟨heq.symm, hfound.symm⟩
    · rw [if_neg (by simpa using heq)] at hfound
      refine Or.inr ⟨?_, hfound⟩
      rintro rfl
      exact hnew (h.mem hfound)
  constructor
  · intro other found hfound
    rcases hcases hfound with ⟨-, rfl⟩ | ⟨-, hold⟩
    · exact List.mem_append_right minted List.mem_cons_self
    · exact List.mem_append_left _ (h.mem hold)
  · intro other other' found hfound hfound'
    rcases hcases hfound with ⟨rfl, hlabel⟩ | ⟨hne, hold⟩
    · rcases hcases hfound' with ⟨rfl, -⟩ | ⟨hne', -⟩
      · rfl
      · exact absurd hlabel hne'
    · rcases hcases hfound' with ⟨-, hlabel⟩ | ⟨-, hold'⟩
      · exact absurd hlabel hne
      · exact h.unique hold hold'

/-- Labels that are new and different may be kept one after another, under whatever names. -/
theorem Keeps.keepAll {minted more names : List String} {labels : Std.TreeMap String String}
    (h : Keeps minted labels) (hdistinct : (minted ++ more).Nodup) :
    Keeps (minted ++ more) (Call.keepAll labels (names.zip more)) := by
  induction more generalizing minted names labels with
  | nil =>
    rw [List.zip_nil_right]
    exact h.append []
  | cons label rest ih =>
    cases names with
    | nil => exact h.append (label :: rest)
    | cons name names =>
      have hsplit : minted ++ label :: rest = minted ++ [label] ++ rest := by simp
      rw [hsplit] at hdistinct ⊢
      have hnew : label ∉ minted := by
        intro hmem
        have hdisjoint := List.disjoint_of_nodup_append (List.Nodup.of_append_left hdistinct)
        exact hdisjoint hmem List.mem_cons_self
      exact ih (h.insert name hnew) hdistinct

/-- What a call that mints `more` adds to a family. The labels minted are the next ones of the
sequence. They are kept under the names that the call has for them. And if there is a new traversal,
then no name went without a label, and the marks on it, on whatever level they stand, have just
these labels besides those that were there, that came with a traversal resumed, or that were written
by hand. -/
structure Adds (F : Family) (names : String → Option Nat) (t : Traversal Pipeline)
    (call : Call Pipeline) (more : List String) (G : Family) : Prop where
  next : more = (List.range more.length).map fun n => Supply.identifier (F.minted.length + n)
  minted : G.minted = F.minted ++ more
  labels : G.labels = Call.keepAll F.labels (call.names.zip more)
  obtained : G.obtained = F.obtained ∨ ∃ t', G.obtained = F.obtained ++ [t'] ∧
    more.length = call.names.length ∧ t'.marks = call.marksAfter (F.kept names) t.marks more

/-- A part of the sequence is told by where it starts. -/
theorem eq_identifiers_of_append {labels more : List String}
    (h : labels ++ more = (List.range (labels ++ more).length).map Supply.identifier) :
    more = (List.range more.length).map fun n => Supply.identifier (labels.length + n) := by
  rw [List.length_append, List.range_add, List.map_append, List.map_map] at h
  exact (List.append_inj h (by simp)).2

theorem adds_perform_call {F : Family} {number : Nat} {names : String → Option Nat}
    {call : Call Pipeline} {t : Traversal Pipeline} (hnumber : F.obtained[number]? = some t)
    (hsequence : (F.perform (.call number names call)).minted =
      (List.range (F.perform (.call number names call)).minted.length).map Supply.identifier) :
    F.Adds names t call (call.minted (F.kept names) t ⟨F.ledger.supply, F.labels⟩)
      (F.perform (.call number names call)) := by
  have hrecords : Call.Records call.names (Call.marksAfter (F.kept names) t.marks · call)
      ⟨F.ledger.supply, F.labels⟩ (call.minted (F.kept names) t ⟨F.ledger.supply, F.labels⟩)
      (call.run (F.kept names) t ⟨F.ledger.supply, F.labels⟩) := Call.run_records t _ call
  rw [perform_call_eq hnumber] at hsequence ⊢
  refine ⟨eq_identifiers_of_append hsequence, rfl, hrecords.labels_eq, ?_⟩
  show F.obtained ++ (call.run (F.kept names) t _).1.toOption.toList = F.obtained ∨
    ∃ t', F.obtained ++ (call.run (F.kept names) t _).1.toOption.toList = F.obtained ++ [t'] ∧ _
  rcases hrun : call.run (F.kept names) t ⟨F.ledger.supply, F.labels⟩ with ⟨fault | t', after⟩
  · left
    exact List.append_nil _
  · right
    rw [hrun] at hrecords
    exact ⟨t', rfl, hrecords.made t' rfl⟩

theorem keeps_perform {F : Family} (h : Keeps F.minted F.labels) (operation : Operation)
    (hdistinct : (F.perform operation).minted.Nodup) :
    Keeps (F.perform operation).minted (F.perform operation).labels := by
  rcases F.perform_cases operation with ⟨number, names, call, t, rfl, hnumber⟩ | ⟨hminted, hlabels⟩
  · rw [perform_call_eq hnumber] at hdistinct ⊢
    simp only [(Call.run_records t _ call).labels_eq]
    exact h.keepAll hdistinct
  · rw [hminted, hlabels]
    exact h

theorem keeps_performAll {F : Family} (h : Keeps F.minted F.labels) (operations : List Operation)
    (hdistinct : (F.performAll operations).minted.Nodup) :
    Keeps (F.performAll operations).minted (F.performAll operations).labels := by
  induction operations generalizing F with
  | nil => exact h
  | cons operation rest ih =>
    have hprefix := (F.perform operation).minted_prefix_performAll rest
    exact ih (keeps_perform h operation (hdistinct.sublist hprefix.sublist)) hdistinct

/-- Nothing is kept before anything was minted. -/
theorem IsRoot.keeps {F : Family} (h : F.IsRoot) : Keeps F.minted F.labels := by
  have hnothing : Keeps [] ∅ := by constructor <;> simp
  cases h <;> exact hnothing

/-- Step labels never collide. Whatever is done with the traversals that come of one start, in any
order and on any branches, nested traversals and failing programs included, the labels minted are
the first ones of the sequence of identifiers, in the order in which they are minted. So they are
all different, up to as many as a counter of 64 bits can tell apart. They are what is kept, each
label under one name only. And they are what marks say, on whichever branch and on whatever level: a
call takes the next ones of the sequence, keeps them under its names in order, and makes a traversal
whose marks at all levels have just these labels besides those that it was given (`Adds`); in
particular a mark puts the next label on its traversal. -/
theorem labels_distinct (hroot : F.IsRoot) (operations : List Operation)
    (hcount : (F.performAll operations).minted.length ≤ 2 ^ 64) :
    (F.performAll operations).minted.Nodup ∧
      (F.performAll operations).minted =
        (List.range (F.performAll operations).minted.length).map Supply.identifier ∧
      Keeps (F.performAll operations).minted (F.performAll operations).labels ∧
      (∀ before number names call after t,
        operations = before ++ .call number names call :: after →
        (F.performAll before).obtained[number]? = some t →
        ∃ more, (F.performAll before).Adds names t call more
          (F.performAll (before ++ [.call number names call]))) ∧
      ∀ before number names name after t,
        operations = before ++ .call number names (.mark name) :: after →
        (F.performAll before).obtained[number]? = some t →
        ∃ t', (F.performAll (before ++ [.call number names (.mark name)])).obtained =
            (F.performAll before).obtained ++ [t'] ∧
          t'.steps.toList = t.steps.toList ++
            [.mark (Supply.identifier (F.performAll before).minted.length)] := by
  have hsound := hroot.isSound.performAll operations
  have hdistinct := hsound.nodup_minted hcount
  -- what has been minted up to some operation is no more than that
  have hbefore : ∀ before operation after, operations = before ++ operation :: after →
      (F.performAll (before ++ [operation])).minted.length ≤ 2 ^ 64 := by
    intro before operation after hoperations
    have hprefix := (F.performAll (before ++ [operation])).minted_prefix_performAll after
    rw [← performAll_append, List.append_assoc, List.singleton_append, ← hoperations] at hprefix
    exact Nat.le_trans hprefix.length_le hcount
  refine ⟨hdistinct, hsound.minted_eq hcount, keeps_performAll hroot.keeps operations hdistinct,
    ?_, ?_⟩
  · intro before number names call after t hoperations hnumber
    have hafter := hroot.isSound.performAll (before ++ [.call number names call])
    have hsequence := hafter.minted_eq (hbefore before _ after hoperations)
    rw [performAll_append] at hsequence ⊢
    exact ⟨_, adds_perform_call hnumber hsequence⟩
  · intro before number names name after t hoperations hnumber
    have hlength := hbefore before _ after hoperations
    rw [performAll_append] at hlength ⊢
    have hone : ((F.performAll before).performAll [.call number names (.mark name)]).minted.length =
        (F.performAll before).minted.length + 1 := by
      show ((F.performAll before).perform (.call number names (.mark name))).minted.length = _
      rw [perform_call_eq hnumber]
      exact List.length_append
    have hsmall : (F.performAll before).minted.length < 2 ^ 64 := by omega
    exact (hroot.isSound.performAll before).perform_mark hnumber hsmall names name

/-- A source with a strategy that only transforms. -/
def branching : Family :=
  ofSource { strategies := [⟨"identity", .ofProgram [.append .identity]⟩] } {}

/-- Starts two traversals and mints labels on both, in a nested traversal, in a program that fails
afterwards, and on a traversal obtained before all of them. -/
def branchingOperations : List Operation :=
  [.start (.step (.v [])), .call 0 (fun _ => none) (.mark "first"),
    .call 0 (fun _ => some 1) (.nest "not" [.mark "second", .resume "other", .mark "third"]),
    .start (.replaceV ⟨"T", [("id", .text "x")]⟩),
    .call 3 (fun _ => none) (.nest "where" [.mark "fourth", .refused (.unset "x")]),
    .call 0 (fun _ => none) (.mark "first")]

/-- On the third traversal the marks stand in a nested one, which goes on with another branch. -/
theorem labels_distinct_branching :
    branching.IsRoot ∧
      (branching.performAll branchingOperations).minted = ["_a", "_b", "_c", "_d", "_e"] ∧
      ["_a", "_b", "_c", "_d", "_e"].Nodup ∧
      (branching.performAll branchingOperations).obtained.map Traversal.marks =
        [[], ["_a"], ["_a", "_c"], [], ["_e"]] ∧
      (branching.performAll branchingOperations).labels.toList =
        [("first", "_e"), ("fourth", "_d"), ("second", "_b"), ("third", "_c")] ∧
      Keeps ["_a", "_b", "_c", "_d", "_e"] (branching.performAll branchingOperations).labels := by
  have hroot : branching.IsRoot := by
    refine .source _ {} rfl ?_
    intro strategy hstrategy
    rw [List.mem_singleton.mp hstrategy]
    exact Strategy.isQuiet_ofProgram "identity" rfl
  have hminted : (branching.performAll branchingOperations).minted =
      ["_a", "_b", "_c", "_d", "_e"] := by
    decide +kernel
  have hcount : (branching.performAll branchingOperations).minted.length ≤ 2 ^ 64 := by
    rw [hminted]
    decide
  obtain ⟨hdistinct, -, hkeeps, -, -⟩ := labels_distinct hroot branchingOperations hcount
  rw [hminted] at hdistinct hkeeps
  refine ⟨hroot, hminted, hdistinct, ?_, ?_, hkeeps⟩
  · decide +kernel
  · decide +kernel

end Family

end Gremlin
