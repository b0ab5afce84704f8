import Mathlib.Data.List.Basic
import Mathlib.Data.List.Induction
import Mathlib.Data.List.Nodup
import Gremlin.Proofs.Lines

/-!
# Runs over sources

A run makes sources, configures them into new ones and starts traversals from them, in any order.
What becomes of a source is told by its line alone:

1. `Sources.Does`: what one operation does to sources of given lines, and what it gives;
   `Sources.Keeps.does` shows that it does no more and no less;
2. `Sources.Does.keeps`: after an operation every source still is the one of its line, and at most
   one start traversal was ever built for it;
3. `Sources.Does.stays`: a source that was started stays as it is;
4. `Sources.runs_by_lines`: what that means for whole runs.
-/

namespace Gremlin

/-- The traversal is a start traversal of the line, built at some time. -/
def Line.Starts (line : Line) (t : Traversal Pipeline) : Prop :=
  ∃ names supply, line.Excludes names ∧ t = (line.start names supply).1

/-- The names of the strategies that a line applies. -/
def Line.applied (line : Line) : List String := line.remaining.map (·.name)

/-- The sources of a run in the order they were made, and what starting from them draws on. -/
structure Sources where
  all : List Source := []
  ledger : Ledger := {}

/-- One operation on the sources of a run, which are told apart by their numbers. -/
inductive Sources.Operation where
  /-- Makes a source with nothing configured. -/
  | make
  | change (number : Nat) (c : Source.Change)
  | start (number : Nat) (opening : Source.Opening)

namespace Sources

/-- Carries out an operation. It gives the traversal that is started, if it is one that starts, or
else the error. -/
def perform (S : Sources) : Operation → Except Error (Option (Traversal Pipeline)) × Sources
  | .make => (.ok none, { S with all := S.all ++ [{}] })
  | .change number c =>
    match S.all[number]? with
    | none => (.ok none, S)
    | some s =>
      match s.change c with
      | .ok s => (.ok none, { S with all := S.all ++ [s] })
      | .error e => (.error e, S)
  | .start number opening =>
    match S.all[number]? with
    | none => (.ok none, S)
    | some s =>
      match s.begin opening S.ledger with
      | (.ok (t, s), ledger) => (.ok (some t), ⟨S.all.set number s, ledger⟩)
      | (.error e, ledger) => (.error e, { S with ledger })

/-- The sources after operations. -/
def after (operations : List Operation) : Sources :=
  operations.foldl (fun S operation => (S.perform operation).2) {}

/-- The lines of the sources after an operation: a change that is not refused makes one more. -/
def grow (lines : List Line) : Operation → List Line
  | .make => lines ++ [[]]
  | .change number c =>
    match lines[number]?, c.refusal? with
    | some line, none => lines ++ [line ++ [c]]
    | _, _ => lines
  | .start _ _ => lines

/-- The lines of the sources that operations make. -/
def lines (operations : List Operation) : List Line := operations.foldl grow []

/-! ## One operation -/

/-- What an operation does to sources of given lines, and what it gives. -/
inductive Does (S : Sources) (lines : List Line) :
    Operation → Except Error (Option (Traversal Pipeline)) → Sources → Prop
  | make : Does S lines .make (.ok none) { S with all := S.all ++ [{}] }
  /-- A change gives one more source, whose line is longer by the change. -/
  | change {number : Nat} {c : Source.Change} {line : Line} {s : Source}
    (known : lines[number]? = some line) (accepted : c.refusal? = none)
    (follows : s.Follows (line ++ [c])) (dormant : s.started = none) :
    Does S lines (.change number c) (.ok none) { S with all := S.all ++ [s] }
  /-- A change to a blank name changes nothing. -/
  | refuse {number : Nat} {c : Source.Change} {line : Line} {e : Error}
    (known : lines[number]? = some line) (refused : c.refusal? = some e) :
    Does S lines (.change number c) (.error e) S
  /-- The first start builds the start traversal of the line, and the source keeps it. -/
  | build {number : Nat} {opening : Source.Opening} {line : Line} {s : Source}
    {steps : List (Step Pipeline)} {names : List String} {t : Traversal Pipeline} {supply : Supply}
    (known : lines[number]? = some line) (found : S.all[number]? = some s)
    (dormant : s.started = none) (opens : opening.steps = .ok steps)
    (excludes : line.Excludes names) (starts : line.start names S.ledger.supply = (t, supply)) :
    Does S lines (.start number opening) (.ok (some (t.addSteps steps supply).1))
      ⟨S.all.set number { s with started := some t },
        ⟨(t.addSteps steps supply).2, S.ledger.applied ++ line.applied⟩⟩
  /-- Later starts append to the start traversal that is there. -/
  | resume {number : Nat} {opening : Source.Opening} {s : Source} {steps : List (Step Pipeline)}
    {t : Traversal Pipeline} (found : S.all[number]? = some s) (started : s.started = some t)
    (opens : opening.steps = .ok steps) :
    Does S lines (.start number opening) (.ok (some (t.addSteps steps S.ledger.supply).1))
      ⟨S.all, ⟨(t.addSteps steps S.ledger.supply).2, S.ledger.applied⟩⟩
  /-- An opening that cannot be made changes nothing. -/
  | reject {number : Nat} {opening : Source.Opening} {line : Line} {e : Error}
    (known : lines[number]? = some line) (fails : opening.steps = .error e) :
    Does S lines (.start number opening) (.error e) S
  /-- There is no source of that number. -/
  | passChange {number : Nat} (c : Source.Change) (unknown : lines[number]? = none) :
    Does S lines (.change number c) (.ok none) S
  | passStart {number : Nat} (opening : Source.Opening) (unknown : lines[number]? = none) :
    Does S lines (.start number opening) (.ok none) S

/-- The source is the one of the line, and so is its start traversal, once it is there. -/
structure Accords (s : Source) (line : Line) : Prop where
  follows : s.Follows line
  starts : ∀ t, s.started = some t → line.Starts t

/-- Every source is the one of its line, and the start traversals were built for one source after
another, for each of them at most once. -/
structure Keeps (S : Sources) (lines : List Line) (built : List Nat) : Prop where
  length : S.all.length = lines.length
  accords : ∀ {number : Nat} {s : Source} {line : Line}, S.all[number]? = some s →
    lines[number]? = some line → Accords s line
  once : built.Nodup
  started_iff : ∀ number, number ∈ built ↔
    ∃ s, S.all[number]? = some s ∧ s.started.isSome = true
  applied : S.ledger.applied = built.flatMap fun number => (lines.getD number []).applied

section Step

variable {S S' : Sources} {lines : List Line} {built : List Nat} {operation : Operation}
  {result : Except Error (Option (Traversal Pipeline))}

theorem Keeps.known (h : S.Keeps lines built) {number : Nat} {s : Source}
    (hfound : S.all[number]? = some s) : ∃ line, lines[number]? = some line := by
  obtain ⟨hlt, -⟩ := List.getElem?_eq_some_iff.mp hfound
  rw [h.length] at hlt
  exact ⟨_, List.getElem?_eq_getElem hlt⟩

theorem Keeps.unknown (h : S.Keeps lines built) {number : Nat} (hfound : S.all[number]? = none) :
    lines[number]? = none := by
  rw [List.getElem?_eq_none_iff] at hfound ⊢
  rwa [← h.length]

/-- An operation does what it should. -/
theorem Keeps.does (h : S.Keeps lines built) (operation : Operation) :
    S.Does lines operation (S.perform operation).1 (S.perform operation).2 := by
  cases operation with
  | make => exact .make
  | change number c =>
    rcases hfound : S.all[number]? with _ | s
    · simp only [perform, hfound]
      exact .passChange c (h.unknown hfound)
    · obtain ⟨line, hline⟩ := h.known hfound
      cases hrefusal : c.refusal? with
      | some e =>
        simp only [perform, hfound, Source.change_of_refusal hrefusal]
        exact .refuse hline hrefusal
      | none =>
        obtain ⟨s', hchange, hchanged⟩ := s.exists_changed hrefusal
        simp only [perform, hfound, hchange]
        exact .change hline hrefusal (hchanged.follows (h.accords hfound hline).follows)
          hchanged.started
  | start number opening =>
    rcases hfound : S.all[number]? with _ | s
    · simp only [perform, hfound]
      exact .passStart opening (h.unknown hfound)
    · obtain ⟨line, hline⟩ := h.known hfound
      cases hsteps : opening.steps with
      | error e =>
        simp only [perform, hfound, Source.begin_of_error S.ledger hsteps]
        exact .reject hline hsteps
      | ok steps =>
        cases hstarted : s.started with
        | some t =>
          -- the source is put back as it was
          have hset : S.all.set number s = S.all := by
            obtain ⟨hlt, hs⟩ := List.getElem?_eq_some_iff.mp hfound
            rw [← hs, List.set_getElem_self]
          simp only [perform, hfound, Source.begin_of_started S.ledger hsteps hstarted, hset]
          exact .resume hfound hstarted hsteps
        | none =>
          obtain ⟨hexcludes, hprepared⟩ := (h.accords hfound hline).follows.prepared_eq
          have hremaining := (h.accords hfound hline).follows.remaining_eq
          simp only [perform, hfound, Source.begin_of_dormant S.ledger hsteps hstarted, hprepared,
            hremaining]
          exact .build hline hfound hstarted hsteps hexcludes rfl

theorem getElem?_concat_eq_some {α : Type} {l : List α} {a b : α} {n : Nat} :
    (l ++ [a])[n]? = some b ↔ l[n]? = some b ∨ n = l.length ∧ a = b := by
  grind

/-- One source more, from which nothing was started. -/
theorem Keeps.concat (h : S.Keeps lines built) {s : Source} {line : Line}
    (hs : s.Follows line) (hdormant : s.started = none) :
    Keeps { S with all := S.all ++ [s] } (lines ++ [line]) built := by
  constructor
  case length => simp [h.length]
  case once => exact h.once
  case accords =>
    intro number s' line' hfound hline
    by_cases hnew : number = S.all.length
    · -- the new source is the one of the new line
      rw [hnew, List.getElem?_concat_length] at hfound
      rw [hnew, h.length, List.getElem?_concat_length] at hline
      injection hfound with hs'
      injection hline with hline'
      rw [← hs', ← hline']
      refine ⟨hs, ?_⟩
      intro t ht
      rw [hdormant] at ht
      contradiction
    · have hfound' : S.all[number]? = some s' :=
        (getElem?_concat_eq_some.mp hfound).resolve_right fun hlast => hnew hlast.1
      have hline' : lines[number]? = some line' := by
        rw [h.length] at hnew
        exact (getElem?_concat_eq_some.mp hline).resolve_right fun hlast => hnew hlast.1
      exact h.accords hfound' hline'
  case started_iff =>
    intro number
    rw [h.started_iff]
    constructor
    · rintro ⟨s', hfound, hstarted⟩
      exact ⟨s', getElem?_concat_eq_some.mpr (.inl hfound), hstarted⟩
    · rintro ⟨s', hfound, hstarted⟩
      rcases getElem?_concat_eq_some.mp hfound with hfound | ⟨-, rfl⟩
      · exact ⟨s', hfound, hstarted⟩
      · rw [hdormant] at hstarted
        contradiction
  case applied =>
    rw [h.applied]
    apply List.flatMap_congr
    intro number hbuilt
    obtain ⟨s', hfound, -⟩ := (h.started_iff number).mp hbuilt
    obtain ⟨line', hline⟩ := h.known hfound
    rw [List.getD_eq_getElem?_getD, List.getD_eq_getElem?_getD, hline,
      getElem?_concat_eq_some.mpr (.inl hline)]

/-- A source keeps the start traversal that is built for it. -/
theorem Keeps.start (h : S.Keeps lines built) {number : Nat} {s : Source} {line : Line}
    {t : Traversal Pipeline} (hfound : S.all[number]? = some s) (hline : lines[number]? = some line)
    (hdormant : s.started = none) (ht : line.Starts t) (supply : Supply) :
    Keeps ⟨S.all.set number { s with started := some t },
      ⟨supply, S.ledger.applied ++ line.applied⟩⟩ lines (built ++ [number]) := by
  have hlt : number < S.all.length := (List.getElem?_eq_some_iff.mp hfound).1
  have hnew : number ∉ built := by
    intro hbuilt
    obtain ⟨s', hfound', hstarted⟩ := (h.started_iff number).mp hbuilt
    rw [hfound] at hfound'
    injection hfound' with hs
    rw [← hs, hdormant] at hstarted
    contradiction
  constructor
  case length => rw [List.length_set, h.length]
  case once =>
    rw [List.nodup_append']
    exact ⟨h.once, List.nodup_singleton _, List.disjoint_singleton.mpr hnew⟩
  case accords =>
    intro other s' line' hfound' hline'
    by_cases hsame : number = other
    · subst hsame
      rw [List.getElem?_set_self hlt] at hfound'
      injection hfound' with hs
      rw [hline] at hline'
      injection hline' with hline'
      rw [← hs, ← hline']
      obtain ⟨hname, henvironment, hstrategies, hexcluded⟩ := (h.accords hfound hline).follows
      refine ⟨⟨hname, henvironment, hstrategies, hexcluded⟩, ?_⟩
      intro t' ht'
      injection ht' with ht'
      rw [← ht']
      exact ht
    · rw [List.getElem?_set_ne hsame] at hfound'
      exact h.accords hfound' hline'
  case started_iff =>
    intro other
    rw [List.mem_append, List.mem_singleton, h.started_iff]
    by_cases hsame : other = number
    · subst hsame
      rw [List.getElem?_set_self hlt]
      exact iff_of_true (.inr rfl) ⟨_, rfl, rfl⟩
    · rw [List.getElem?_set_ne (Ne.symm hsame)]
      exact or_iff_left hsame
  case applied =>
    rw [List.flatMap_append, ← h.applied, List.flatMap_singleton, List.getD_eq_getElem?_getD,
      hline]
    rfl

/-- After an operation every source still is the one of its line. -/
theorem Does.keeps (hdoes : S.Does lines operation result S') (h : S.Keeps lines built) :
    ∃ built', S'.Keeps (grow lines operation) built' := by
  cases hdoes with
  | make => exact ⟨built, h.concat Source.follows_nil rfl⟩
  | change hline haccepted hfollows hdormant =>
    refine ⟨built, ?_⟩
    simp only [grow, hline, haccepted]
    exact h.concat hfollows hdormant
  | refuse hline hrefused =>
    refine ⟨built, ?_⟩
    simp only [grow, hline, hrefused]
    exact h
  | build hline hfound hdormant hopens hexcludes hstarts =>
    refine ⟨_, h.start hfound hline hdormant ⟨_, S.ledger.supply, hexcludes, ?_⟩ _⟩
    rw [hstarts]
  | resume hfound hstarted hopens =>
    exact ⟨built, h.length, h.accords, h.once, h.started_iff, h.applied⟩
  | reject hline hfails => exact ⟨built, h⟩
  | passChange c hunknown =>
    refine ⟨built, ?_⟩
    simp only [grow, hunknown]
    exact h
  | passStart opening hunknown => exact ⟨built, h⟩

/-- A source that was started stays as it is. -/
theorem Does.stays (hdoes : S.Does lines operation result S') {number : Nat} {s : Source}
    (hfound : S.all[number]? = some s) (hstarted : s.started.isSome = true) :
    S'.all[number]? = some s := by
  cases hdoes with
  | make => exact getElem?_concat_eq_some.mpr (.inl hfound)
  | change => exact getElem?_concat_eq_some.mpr (.inl hfound)
  | build hline hfound' hdormant hopens hexcludes hstarts =>
    rename_i number' _ _ _ _ _ _ _
    have hother : number' ≠ number := by
      intro hsame
      rw [hsame, hfound] at hfound'
      injection hfound' with hs
      rw [hs, hdormant] at hstarted
      contradiction
    rw [List.getElem?_set_ne hother]
    exact hfound
  | _ => exact hfound

end Step

/-! ## Runs -/

theorem after_concat (operations : List Operation) (operation : Operation) :
    after (operations ++ [operation]) = ((after operations).perform operation).2 := by
  simp [after]

theorem lines_concat (operations : List Operation) (operation : Operation) :
    lines (operations ++ [operation]) = grow (lines operations) operation := by
  simp [lines]

theorem keeps_after (operations : List Operation) :
    ∃ built, (after operations).Keeps (lines operations) built := by
  induction operations using List.reverseRecOn with
  | nil =>
    refine ⟨[], rfl, ?_, .nil, ?_, rfl⟩
    · intro number s line hfound
      contradiction
    · intro number
      simp [after]
  | append_singleton operations operation ih =>
    obtain ⟨built, hkeeps⟩ := ih
    rw [after_concat, lines_concat]
    exact (hkeeps.does operation).keeps hkeeps

theorem stays_after (operations more : List Operation) {number : Nat} {s : Source}
    (hfound : (after operations).all[number]? = some s) (hstarted : s.started.isSome = true) :
    (after (operations ++ more)).all[number]? = some s := by
  induction more using List.reverseRecOn with
  | nil => rwa [List.append_nil]
  | append_singleton more operation ih =>
    obtain ⟨built, hkeeps⟩ := keeps_after (operations ++ more)
    rw [← List.append_assoc, after_concat]
    exact (hkeeps.does operation).stays ih hstarted

theorem prefix_lines_append (operations more : List Operation) :
    lines operations <+: lines (operations ++ more) := by
  induction more using List.reverseRecOn with
  | nil => simp
  | append_singleton more operation ih =>
    rw [← List.append_assoc, lines_concat]
    refine ih.trans ?_
    unfold grow
    split
    · exact List.prefix_append _ _
    · split
      · exact List.prefix_append _ _
      · exact List.prefix_rfl
    · exact List.prefix_rfl

/-- Over a whole run, every source is the one of its line and at most one start traversal is built
for it; the next operation does what it should; and whatever comes later, the lines stay, and the
sources that were started. -/
theorem runs_by_lines (operations : List Operation) :
    (∃ built, (after operations).Keeps (lines operations) built) ∧
    (∀ operation, (after operations).Does (lines operations) operation
      ((after operations).perform operation).1 (after (operations ++ [operation]))) ∧
    ∀ more, lines operations <+: lines (operations ++ more) ∧
      ∀ (number : Nat) (s : Source), (after operations).all[number]? = some s →
        s.started.isSome = true → (after (operations ++ more)).all[number]? = some s := by
  obtain ⟨built, hkeeps⟩ := keeps_after operations
  refine ⟨⟨built, hkeeps⟩, ?_, ?_⟩
  · intro operation
    rw [after_concat]
    exact hkeeps.does operation
  · intro more
    refine ⟨prefix_lines_append operations more, ?_⟩
    intro number s hfound hstarted
    exact stays_after operations more hfound hstarted

/-- A strategy that was excluded before it was added is passed over, and starting twice applies the
others once. -/
example : (after [.make, .change 0 (.exclude ["audit"]),
    .change 1 (.addStrategies [⟨"audit", .ofProgram []⟩, ⟨"tag", .ofProgram []⟩]),
    .start 2 (.step (.v [])), .start 2 (.step (.e []))]).ledger.applied = ["tag"] := by
  decide +kernel

end Sources

end Gremlin
