import Gremlin.Proofs.Memory
import Gremlin.Step

/-!
# Histories of step lists

In a run of edits every list has a history: the steps pushed to make it, in order, those of the
list that it was made from included. Two pushes are never the same, even of equal steps, so a push
is known by the list that it was made for and its place among the pushes for that list. Clearing a
place leaves a list with no history there.

* `Shelf.Recorded`: how the lists on a shelf go with histories;
* `Shelf.recorded_editAll`: a run of edits keeps to that;
* `Shelf.Recorded.sharesPrefixWith_iff`: sharing a prefix is having a history that was gone on from;
* `Shelf.lists_follow_histories`: what lists are and what they share, for all runs.
-/

namespace Gremlin

variable {ρ : Type}

namespace Shelf

/-! ## Histories -/

/-- A push: the list that it was made for, its place among the pushes for that list, and the
step. -/
structure Entry (ρ : Type) where
  list : Nat
  place : Nat
  step : Step ρ

/-- What was pushed to make each list, by number. -/
abbrev Histories (ρ : Type) := List (List (Entry ρ))

/-- The pushes of some steps for one list. -/
def entries (list : Nat) (steps : List (Step ρ)) : List (Entry ρ) :=
  steps.mapIdx fun place step => ⟨list, place, step⟩

/-- The histories after an edit. -/
def Edit.record (histories : Histories ρ) : Edit ρ → Histories ρ
  | .push list step =>
    histories ++ [histories.getD list [] ++ entries histories.length [step]]
  | .collect steps => histories ++ [entries histories.length steps]
  | .copy list => histories ++ [histories.getD list []]
  | .clear list => histories.set list []

/-- The histories after a run of edits, of which the first list has none. -/
def histories (edits : List (Edit ρ)) : Histories ρ := edits.foldl Edit.record [[]]

/-- The history of a list after a run of edits. -/
def history (edits : List (Edit ρ)) (list : Nat) : List (Entry ρ) := (histories edits).getD list []

/-! ## Lists with their histories -/

/-- The list that a history makes when its pushes have these identities. -/
def written (number : Entry ρ → Nat) (history : List (Entry ρ)) : StepList ρ :=
  ⟨(history.map fun e => ⟨number e, e.step⟩).reverse⟩

section Written

variable (number : Entry ρ → Nat) (history : List (Entry ρ))

theorem toList_written : (written number history).toList = history.map (·.step) := by
  rw [StepList.toList, written, List.map_reverse, List.reverse_reverse, List.map_map]
  rfl

theorem length_written : (written number history).length = history.length := by
  rw [StepList.length, written, List.length_reverse, List.length_map]

theorem last?_written : (written number history).last? = history.getLast?.map (·.step) := by
  rw [StepList.last?, written, List.head?_reverse, List.getLast?_map, Option.map_map]
  rfl

theorem written_congr {number' : Entry ρ → Nat} (h : ∀ e ∈ history, number e = number' e) :
    written number history = written number' history := by
  rw [written, written, List.map_congr_left fun e he => by rw [h e he]]

/-- The identities of two lists agree at the end of the first if the pushes there have one. -/
theorem sharesPrefixWith_concat (e : Entry ρ) (other : List (Entry ρ)) :
    (written number (history ++ [e])).sharesPrefixWith (written number other) = true ↔
      ∃ e', other[history.length]? = some e' ∧ number e' = number e := by
  have hends : (written number (history ++ [e])).newestFirst.head?.map (·.id) =
      some (number e) := by
    simp [written]
  rw [StepList.sharesPrefixWith, hends, length_written, length_written, List.length_append,
    List.length_singleton, written, List.drop_reverse, List.length_map, List.head?_reverse]
  by_cases hlength : history.length + 1 ≤ other.length
  · have htake : other.length - (other.length - (history.length + 1)) = history.length + 1 := by
      omega
    have hplace : history.length < other.length := by omega
    rw [htake, List.getLast?_take, List.getElem?_map]
    simp [hlength, hplace]
  · have hbeyond : other[history.length]? = none := List.getElem?_eq_none (by omega)
    simp [hlength, hbeyond]

end Written

theorem getElem?_entries {list : Nat} {steps : List (Step ρ)} {i : Nat} {e : Entry ρ}
    (h : (entries list steps)[i]? = some e) : e.list = list ∧ e.place = i ∧ i < steps.length := by
  rw [entries, List.getElem?_mapIdx, Option.map_eq_some_iff] at h
  obtain ⟨step, hstep, rfl⟩ := h
  exact ⟨rfl, rfl, (List.getElem?_eq_some_iff.mp hstep).1⟩

/-- A push stands at its place. -/
theorem getElem?_place {list : Nat} {steps : List (Step ρ)} {e : Entry ρ}
    (h : e ∈ entries list steps) : (entries list steps)[e.place]? = some e := by
  obtain ⟨i, hi⟩ := List.mem_iff_getElem?.mp h
  rw [(getElem?_entries hi).2.1, hi]

/-- Collecting steps makes nodes of the next identities. -/
theorem collect_eq (list : StepList ρ) (steps : List (Step ρ)) (supply : Supply) :
    list.collect steps supply =
      (⟨(steps.mapIdx fun i step => ⟨supply.nextNode + i, step⟩).reverse ++ list.newestFirst⟩,
        { supply with nextNode := supply.nextNode + steps.length }) := by
  induction steps generalizing list supply with
  | nil =>
    obtain ⟨nodes⟩ := list
    rw [List.mapIdx_nil]
    rfl
  | cons step rest ih =>
    have hcollect := ih (list.push supply.nextNode step)
      { supply with nextNode := supply.nextNode + 1 }
    have hnext : ∀ n, supply.nextNode + 1 + n = supply.nextNode + (n + 1) := by omega
    simp only [hnext] at hcollect
    rw [List.mapIdx_cons, List.reverse_cons, List.append_assoc]
    exact hcollect

/-! ## Lists with their histories -/

/-- The lists on a shelf go with histories: they are made of the pushes, which have identities of
their own, already given out, and every push has the same pushes before it wherever it is. -/
structure Recorded (number : Entry ρ → Nat) (before : Entry ρ → List (Entry ρ))
    (histories : Histories ρ) (shelf : Shelf ρ) (supply : Supply) : Prop where
  lists_eq : shelf.lists.toList = histories.map (written number)
  injective : ∀ e ∈ histories.flatten, ∀ e' ∈ histories.flatten, number e = number e' → e = e'
  recent : ∀ e ∈ histories.flatten, e.list < histories.length ∧ number e < supply.nextNode
  before_eq : ∀ h ∈ histories, ∀ (i : Nat) (e : Entry ρ), h[i]? = some e → before e = h.take i

namespace Recorded

variable {number : Entry ρ → Nat} {before : Entry ρ → List (Entry ρ)} {histories : Histories ρ}
  {shelf : Shelf ρ} {supply : Supply}

theorem get_eq (h : Recorded number before histories shelf supply) (list : Nat) :
    shelf.get list = written number (histories.getD list []) := by
  rw [shelf.get_eq, h.lists_eq, List.getD_eq_getElem?_getD, List.getD_eq_getElem?_getD,
    List.getElem?_map]
  cases histories[list]? <;> rfl

theorem start (supply : Supply) : Recorded (ρ := ρ) (fun _ => 0) (fun _ => []) [[]] {} supply where
  lists_eq := rfl
  injective := by simp
  recent := by simp
  before_eq := by simp

end Recorded

/-! ### One more list -/

/-- Identities with those given to the pushes for a new list, counted from `next` on. -/
def numbered (number : Entry ρ → Nat) (list next : Nat) (e : Entry ρ) : Nat :=
  if e.list = list then next + e.place else number e

/-- What comes before pushes, those for a new list included, which go on from `old`. -/
def preceded (before : Entry ρ → List (Entry ρ)) (list : Nat) (old : List (Entry ρ))
    (steps : List (Step ρ)) (e : Entry ρ) : List (Entry ρ) :=
  if e.list = list then old ++ (entries list steps).take e.place else before e

section Extend

variable {number : Entry ρ → Nat} {before : Entry ρ → List (Entry ρ)} {list next : Nat}
  {old : List (Entry ρ)} {steps : List (Step ρ)} {e : Entry ρ}

theorem numbered_of_ne (h : e.list ≠ list) : numbered number list next e = number e := if_neg h

theorem numbered_of_mem (h : e ∈ entries list steps) :
    numbered number list next e = next + e.place :=
  if_pos (getElem?_entries (getElem?_place h)).1

/-- A push for the new list has an identity that no other push has. -/
theorem eq_of_numbered_eq {known : List (Entry ρ)}
    (hinjective : ∀ e ∈ known, ∀ e' ∈ known, number e = number e' → e = e')
    (hknown : ∀ e ∈ known, e.list ≠ list ∧ number e < next) {e' : Entry ρ}
    (he : e ∈ known ∨ e ∈ entries list steps) (he' : e' ∈ known ∨ e' ∈ entries list steps)
    (h : numbered number list next e = numbered number list next e') : e = e' := by
  rcases he with he | he
  · rcases he' with he' | he'
    · rw [numbered_of_ne (hknown e he).1, numbered_of_ne (hknown e' he').1] at h
      exact hinjective e he e' he' h
    · rw [numbered_of_ne (hknown e he).1, numbered_of_mem he'] at h
      have := (hknown e he).2
      omega
  · rcases he' with he' | he'
    · rw [numbered_of_mem he, numbered_of_ne (hknown e' he').1] at h
      have := (hknown e' he').2
      omega
    · -- both are for the new list, where there is one push in each place
      rw [numbered_of_mem he, numbered_of_mem he'] at h
      have hplace : e.place = e'.place := Nat.add_left_cancel h
      have hat := getElem?_place he
      rw [hplace, getElem?_place he'] at hat
      exact (Option.some.inj hat).symm

/-- Before a push for the new list comes what that list goes on from, and the pushes before. -/
theorem preceded_eq (hold : ∀ e ∈ old, e.list ≠ list)
    (hbefore : ∀ (i : Nat) (e : Entry ρ), old[i]? = some e → before e = old.take i) {i : Nat}
    (he : (old ++ entries list steps)[i]? = some e) :
    preceded before list old steps e = (old ++ entries list steps).take i := by
  rw [List.getElem?_append] at he
  split at he
  case isTrue hi =>
    rw [preceded, if_neg (hold e (List.mem_of_getElem? he)), hbefore i e he,
      List.take_append_of_le_length (Nat.le_of_lt hi)]
  case isFalse hi =>
    obtain ⟨hlist, hplace, _⟩ := getElem?_entries he
    rw [preceded, if_pos hlist, hplace, List.take_append,
      List.take_of_length_le (Nat.not_lt.mp hi)]

/-- Collecting after a list makes the list of the history that goes on. -/
theorem written_numbered (hold : ∀ e ∈ old, e.list ≠ list) (supply : Supply) :
    written (numbered number list supply.nextNode) (old ++ entries list steps) =
      ((written number old).collect steps supply).1 := by
  have hkept : written (numbered number list supply.nextNode) old = written number old :=
    written_congr _ _ fun e he => numbered_of_ne (hold e he)
  have hadded : (entries list steps).map (fun e =>
      (⟨numbered number list supply.nextNode e, e.step⟩ : Node ρ)) =
      steps.mapIdx fun i step => ⟨supply.nextNode + i, step⟩ := by
    apply List.ext_getElem?
    intro i
    rw [entries, List.getElem?_map, List.getElem?_mapIdx, List.getElem?_mapIdx, Option.map_map]
    congr 1
    funext step
    simp [numbered]
  rw [collect_eq, ← hkept]
  simp only [written, List.map_append, List.reverse_append, hadded]

end Extend

namespace Recorded

variable {number : Entry ρ → Nat} {before : Entry ρ → List (Entry ρ)} {histories : Histories ρ}
  {shelf : Shelf ρ} {supply : Supply} {old : List (Entry ρ)}

/-- Pushes are for a new list, and so are not among those that there are. -/
theorem extend (h : Recorded number before histories shelf supply)
    (hold : ∀ e ∈ old, e ∈ histories.flatten)
    (hbefore : ∀ (i : Nat) (e : Entry ρ), old[i]? = some e → before e = old.take i)
    (steps : List (Step ρ)) :
    Recorded (numbered number histories.length supply.nextNode)
      (preceded before histories.length old steps)
      (histories ++ [old ++ entries histories.length steps])
      (shelf.extend (written number old) steps supply).1.2
      (shelf.extend (written number old) steps supply).2 := by
  have hother : ∀ e ∈ histories.flatten, e.list ≠ histories.length := fun e he =>
    Nat.ne_of_lt (h.recent e he).1
  have hmem : ∀ e ∈ (histories ++ [old ++ entries histories.length steps]).flatten,
      e ∈ histories.flatten ∨ e ∈ entries histories.length steps := by
    intro e he
    rw [List.flatten_append, List.mem_append, List.flatten_singleton, List.mem_append] at he
    rcases he with he | he | he
    · exact .inl he
    · exact .inl (hold e he)
    · exact .inr he
  have hnext : (shelf.extend (written number old) steps supply).2.nextNode =
      supply.nextNode + steps.length := by
    show ((written number old).collect steps supply).2.nextNode = _
    rw [collect_eq]
  constructor
  case lists_eq =>
    have hkept : histories.map (written (numbered number histories.length supply.nextNode)) =
        histories.map (written number) := by
      apply List.map_congr_left
      intro h' hh'
      exact written_congr _ _ fun e he =>
        numbered_of_ne (hother e (List.mem_flatten_of_mem hh' he))
    have hnew : written (numbered number histories.length supply.nextNode)
        (old ++ entries histories.length steps) = ((written number old).collect steps supply).1 :=
      written_numbered (fun e he => hother e (hold e he)) supply
    rw [List.map_append, hkept, List.map_singleton, hnew, ← h.lists_eq]
    exact Array.toList_push
  case injective =>
    intro e he e' he' hnumber
    exact eq_of_numbered_eq h.injective (fun e he => ⟨hother e he, (h.recent e he).2⟩) (hmem e he)
      (hmem e' he') hnumber
  case recent =>
    intro e he
    rw [List.length_append, List.length_singleton, hnext]
    rcases hmem e he with he | he
    · rw [numbered_of_ne (hother e he)]
      have := h.recent e he
      omega
    · rw [numbered_of_mem he]
      have := getElem?_entries (getElem?_place he)
      omega
  case before_eq =>
    intro h' hh' i e he
    rcases List.mem_append.mp hh' with hh' | hh'
    · rw [preceded, if_neg (hother e (List.mem_flatten_of_mem hh' (List.mem_of_getElem? he)))]
      exact h.before_eq h' hh' i e he
    · rw [List.mem_singleton.mp hh'] at he ⊢
      exact preceded_eq (fun e he => hother e (hold e he)) hbefore he

theorem clear (h : Recorded number before histories shelf supply) (list : Nat) :
    Recorded number before (histories.set list []) (shelf.edit (.clear list) supply).1.2
      (shelf.edit (.clear list) supply).2 := by
  have hmem : ∀ e ∈ (histories.set list []).flatten, e ∈ histories.flatten := by
    intro e he
    obtain ⟨h', hh', he⟩ := List.mem_flatten.mp he
    rcases List.mem_or_eq_of_mem_set hh' with hh' | rfl
    · exact List.mem_flatten_of_mem hh' he
    · exact absurd he List.not_mem_nil
  constructor
  case lists_eq =>
    rw [List.map_set, ← h.lists_eq]
    exact Array.toList_setIfInBounds
  case injective => exact fun e he e' he' => h.injective e (hmem e he) e' (hmem e' he')
  case recent =>
    rw [List.length_set]
    exact fun e he => h.recent e (hmem e he)
  case before_eq =>
    intro h' hh' i e he
    rcases List.mem_or_eq_of_mem_set hh' with hh' | rfl
    · exact h.before_eq h' hh' i e he
    · simp at he

/-! ### Runs -/

theorem getD_cases (histories : Histories ρ) (list : Nat) :
    histories.getD list [] ∈ histories ∨ histories.getD list [] = [] := by
  rw [List.getD_eq_getElem?_getD]
  cases hlist : histories[list]? with
  | none => exact .inr rfl
  | some h' => exact .inl (List.mem_of_getElem? hlist)

theorem mem_of_getD {list : Nat} {e : Entry ρ} (he : e ∈ histories.getD list []) :
    e ∈ histories.flatten := by
  rcases getD_cases histories list with hmem | hnil
  · exact List.mem_flatten_of_mem hmem he
  · rw [hnil] at he
    exact absurd he List.not_mem_nil

theorem before_getD (h : Recorded number before histories shelf supply) (list : Nat) {i : Nat}
    {e : Entry ρ} (he : (histories.getD list [])[i]? = some e) :
    before e = (histories.getD list []).take i := by
  rcases getD_cases histories list with hmem | hnil
  · exact h.before_eq _ hmem i e he
  · rw [hnil] at he
    simp at he

/-- An edit makes a list of what it is recorded with. -/
theorem edit (h : Recorded number before histories shelf supply) (e : Edit ρ) :
    ∃ number' before', Recorded number' before' (e.record histories) (shelf.edit e supply).1.2
      (shelf.edit e supply).2 := by
  have hextend : ∀ list steps, ∃ number' before', Recorded number' before'
      (histories ++ [histories.getD list [] ++ entries histories.length steps])
      (shelf.extend (shelf.get list) steps supply).1.2
      (shelf.extend (shelf.get list) steps supply).2 := by
    intro list steps
    rw [h.get_eq]
    exact ⟨_, _, h.extend (fun e he => mem_of_getD he) (fun i e he => h.before_getD list he) steps⟩
  cases e with
  | push list step => exact hextend list [step]
  | collect steps =>
    have hnone : ∀ e ∈ ([] : List (Entry ρ)), e ∈ histories.flatten := by simp
    exact ⟨_, _, h.extend hnone (by simp) steps⟩
  | copy list =>
    have hcopy := hextend list []
    rwa [entries, List.mapIdx_nil, List.append_nil] at hcopy
  | clear list => exact ⟨number, before, h.clear list⟩

end Recorded

/-- After a run of edits the lists on a shelf go with the histories of the run. -/
theorem recorded_editAll {number : Entry ρ → Nat} {before : Entry ρ → List (Entry ρ)}
    {histories : Histories ρ} {shelf : Shelf ρ} {supply : Supply}
    (h : Recorded number before histories shelf supply) (edits : List (Edit ρ)) :
    ∃ number' before', Recorded number' before' (edits.foldl Edit.record histories)
      (shelf.editAll edits supply).1 (shelf.editAll edits supply).2 := by
  induction edits generalizing number before histories shelf supply with
  | nil => exact ⟨number, before, h⟩
  | cons e rest ih =>
    obtain ⟨_, _, hedit⟩ := h.edit e
    exact ih hedit

/-! ## Sharing -/

namespace Recorded

variable {number : Entry ρ → Nat} {before : Entry ρ → List (Entry ρ)} {histories : Histories ρ}
  {shelf : Shelf ρ} {supply : Supply}

/-- Where the last push of a history is found in another, the same pushes come before it. -/
theorem prefix_of_getElem? (h : Recorded number before histories shelf supply) {list other i : Nat}
    {front : List (Entry ρ)} {e : Entry ρ} (hlist : histories.getD list [] = front ++ [e])
    (hother : (histories.getD other [])[i]? = some e) :
    histories.getD list [] <+: histories.getD other [] := by
  have hlast : (histories.getD list [])[front.length]? = some e := by
    rw [hlist, List.getElem?_concat_length]
  have hfront : (histories.getD other []).take i = front := by
    rw [← h.before_getD other hother, h.before_getD list hlast, hlist, List.take_left]
  have htake : (histories.getD other []).take (i + 1) = front ++ [e] := by
    rw [List.take_add_one, hfront, hother, Option.toList_some]
  rw [hlist, ← htake]
  exact List.take_prefix _ _

/-- One history goes on from another exactly if it has its last push. -/
theorem prefix_iff (h : Recorded number before histories shelf supply) (list other : Nat) :
    histories.getD list [] <+: histories.getD other [] ↔
      histories.getD list [] = [] ∨
        ∃ e ∈ histories.getD other [], (histories.getD list []).getLast? = some e := by
  constructor
  · intro hprefix
    cases hlast : (histories.getD list []).getLast? with
    | none => exact .inl (List.getLast?_eq_none_iff.mp hlast)
    | some e => exact .inr ⟨e, hprefix.subset (List.mem_of_getLast? hlast), rfl⟩
  · rintro (hnil | ⟨e, he, hlast⟩)
    · rw [hnil]
      exact List.nil_prefix
    · obtain ⟨front, hlist⟩ := List.getLast?_eq_some_iff.mp hlast
      obtain ⟨i, hi⟩ := List.mem_iff_getElem?.mp he
      exact h.prefix_of_getElem? hlist hi

/-- A list shares its prefix with another exactly if the history of the other goes on from its
own. -/
theorem sharesPrefixWith_iff (h : Recorded number before histories shelf supply)
    (list other : Nat) :
    (shelf.get list).sharesPrefixWith (shelf.get other) = true ↔
      histories.getD list [] <+: histories.getD other [] := by
  rw [h.get_eq, h.get_eq]
  rcases List.eq_nil_or_concat (histories.getD list []) with hnil | ⟨front, last, hlist⟩
  · rw [hnil]
    simp [StepList.sharesPrefixWith, written, StepList.length]
  · rw [List.concat_eq_append] at hlist
    constructor
    · intro hshares
      rw [hlist, sharesPrefixWith_concat] at hshares
      obtain ⟨e, he, hnumber⟩ := hshares
      -- the push there has the same identity, so it is the same push
      have hlast : last ∈ histories.getD list [] := by
        rw [hlist]
        exact List.mem_concat_self
      obtain rfl := h.injective e (mem_of_getD (List.mem_of_getElem? he)) last (mem_of_getD hlast)
        hnumber
      exact h.prefix_of_getElem? hlist he
    · rintro ⟨rest, hrest⟩
      rw [← hrest, hlist, sharesPrefixWith_concat]
      exact ⟨last, by simp, rfl⟩

end Recorded

/-! ## What stays -/

theorem get_extend {shelf : Shelf ρ} {list : Nat} (h : list < shelf.lists.size)
    (steps : StepList ρ) (more : List (Step ρ)) (supply : Supply) :
    list < (shelf.extend steps more supply).1.2.lists.size ∧
      (shelf.extend steps more supply).1.2.get list = shelf.get list := by
  have hput : (shelf.extend steps more supply).1.2 =
      shelf.put (steps.collect more supply).1 := rfl
  rw [hput, put, get, get, Array.size_push, Array.getD_eq_getD_getElem?,
    Array.getD_eq_getD_getElem?, Array.getElem?_push_lt h, Array.getElem?_eq_getElem h]
  exact ⟨Nat.lt_succ_of_lt h, rfl⟩

/-- Edits change no list but one that they clear. -/
theorem get_edit {shelf : Shelf ρ} {list : Nat} (h : list < shelf.lists.size) {e : Edit ρ}
    (he : e ≠ .clear list) (supply : Supply) :
    list < (shelf.edit e supply).1.2.lists.size ∧
      (shelf.edit e supply).1.2.get list = shelf.get list := by
  cases e with
  | push other step => exact get_extend h (shelf.get other) [step] supply
  | collect steps => exact get_extend h .empty steps supply
  | copy other => exact get_extend h (shelf.get other) [] supply
  | clear other =>
    have hother : other ≠ list := fun hsame => he (hsame ▸ rfl)
    have hclear : (shelf.edit (.clear other) supply).1.2 =
        ⟨shelf.lists.setIfInBounds other .empty⟩ := rfl
    rw [hclear, get, get, Array.size_setIfInBounds, Array.getD_eq_getD_getElem?,
      Array.getD_eq_getD_getElem?, Array.getElem?_setIfInBounds_ne hother]
    exact ⟨h, rfl⟩

theorem get_editAll {shelf : Shelf ρ} {list : Nat} (h : list < shelf.lists.size)
    {edits : List (Edit ρ)} (hedits : ∀ e ∈ edits, e ≠ .clear list) (supply : Supply) :
    (shelf.editAll edits supply).1.get list = shelf.get list := by
  induction edits generalizing shelf supply with
  | nil => rfl
  | cons e rest ih =>
    obtain ⟨he, hrest⟩ := List.forall_mem_cons.mp hedits
    obtain ⟨hsize, hget⟩ := get_edit h he supply
    rw [← hget]
    exact ih hsize hrest _

/-! ## Step lists -/

/-- For all runs of edits: every list has the steps that were pushed in its history, in order, its
length is their number and its last step the last of them; later edits leave it as it is unless they
clear its place; and it shares its prefix with another exactly if it is empty or its last push is
one in the history of the other, that is, if the other was gone on to from it or from a copy, and
then its steps are a prefix of the other's. A memory where the nodes point back and keep their
lengths gives the same answers, also to what is told by walking back to a stored length. -/
theorem lists_follow_histories (edits : List (Edit ρ)) (supply : Supply) :
    let shelf := (editAll {} edits supply).1
    let memory := Memory.editAll {} edits
    (∀ list, (shelf.get list).toList = (history edits list).map (·.step) ∧
      (shelf.get list).length = (history edits list).length ∧
      (shelf.get list).last? = (history edits list).getLast?.map (·.step)) ∧
    (∀ list < shelf.lists.size, ∀ more : List (Edit ρ), (∀ e ∈ more, e ≠ .clear list) →
      (editAll {} (edits ++ more) supply).1.get list = shelf.get list) ∧
    (∀ list other,
      ((shelf.get list).sharesPrefixWith (shelf.get other) = true ↔
        history edits list = [] ∨
          ∃ e ∈ history edits other, (history edits list).getLast? = some e) ∧
      ((shelf.get list).sharesPrefixWith (shelf.get other) = true ↔
        history edits list <+: history edits other) ∧
      ((shelf.get list).sharesPrefixWith (shelf.get other) = true →
        (shelf.get list).toList <+: (shelf.get other).toList)) ∧
    ∀ list other,
      memory.cells.toList (memory.get list) = (shelf.get list).toList ∧
      memory.cells.lengthOf (memory.get list) = (shelf.get list).length ∧
      memory.cells.last? (memory.get list) = (shelf.get list).last? ∧
      memory.cells.sharesPrefix (memory.get list) (memory.get other) =
        (shelf.get list).sharesPrefixWith (shelf.get other) := by
  intro shelf memory
  obtain ⟨number, before, hrecorded⟩ := recorded_editAll (Recorded.start (ρ := ρ) supply) edits
  have hmirrors := Memory.mirrors_editAll (Memory.mirrors_start (ρ := ρ) supply) edits
  have hget : ∀ list, shelf.get list = written number (history edits list) := hrecorded.get_eq
  have hshares : ∀ list other, (shelf.get list).sharesPrefixWith (shelf.get other) = true ↔
      history edits list <+: history edits other := hrecorded.sharesPrefixWith_iff
  refine ⟨?_, ?_, ?_, ?_⟩
  · intro list
    rw [hget]
    exact ⟨toList_written _ _, length_written _ _, last?_written _ _⟩
  · intro list hlist more hmore
    rw [editAll_append]
    exact get_editAll hlist hmore _
  · intro list other
    refine ⟨(hshares list other).trans (hrecorded.prefix_iff list other), hshares list other, ?_⟩
    intro h
    rw [hget, hget, toList_written, toList_written]
    exact ((hshares list other).mp h).map _
  · intro list other
    have hlist := hmirrors.get list
    exact ⟨hlist.toList_eq, hlist.lengthOf_eq, hlist.last?_eq,
      hlist.sharesPrefix_eq (hmirrors.get other)⟩

/-- A list, a copy of it, one step after each of the two, and a list of the same step made anew. -/
def branching : List (Edit Unit) :=
  [.push 0 (.bare "V"), .copy 1, .push 2 (.bare "out"), .push 1 (.bare "in"),
    .collect [.bare "V"]]

/-- A list stays when its copy is cleared, shares its prefix with what was made from the copy, and
not with an equal list that was made anew. -/
theorem lists_follow_histories_branching :
    let shelf := (editAll {} branching {}).1
    let more : List (Edit Unit) := [.clear 2, .push 1 .identity]
    (1 < shelf.lists.size ∧ (∀ e ∈ more, e ≠ .clear 1) ∧
      (editAll {} (branching ++ more) {}).1.get 1 = shelf.get 1) ∧
    ((shelf.get 1).sharesPrefixWith (shelf.get 3) = true ∧
      (shelf.get 1).toList <+: (shelf.get 3).toList) ∧
    (shelf.get 1).sharesPrefixWith (shelf.get 5) = false := by
  intro shelf more
  obtain ⟨_, hstays, hshares, _⟩ := lists_follow_histories branching {}
  have hsize : 1 < shelf.lists.size := by decide
  have hmore : ∀ e ∈ more, e ≠ .clear 1 := by simp [more]
  have hshared : (shelf.get 1).sharesPrefixWith (shelf.get 3) = true := by decide
  exact ⟨⟨hsize, hmore, hstays 1 hsize more hmore⟩, ⟨hshared, (hshares 1 3).2.2 hshared⟩, by decide⟩

end Shelf

end Gremlin
