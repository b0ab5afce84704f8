import Gremlin.Proofs.Results
import Gremlin.StepList.Shelf

/-!
# Step lists in memory

A step list is known by its newest node, and a node by the place that was allocated for it. The
node has the step, the place of the node before it, and how many nodes there are up to it. So a
list is read by walking back from its newest node, and the one that another was derived from is
looked for by the length stored in the nodes on the way.

* `Cells.Holds`: the nodes found on the way back from a place;
* `Cells.Holds.append`: allocating changes nothing that is there;
* `Cells.Holds.trail_eq`: the walk over as many nodes as the newest one says finds them all;
* `Cells.Holds.before_eq_none_of_getLast?`: it ends at a node that has none before it;
* `Cells.Holds.sharesPrefix_eq`: what is found by stored lengths is what step lists tell;
* `Memory.mirrors_editAll`: a memory that is edited like a shelf has the same lists.
-/

namespace Gremlin

variable {ρ : Type}

/-! ## Nodes in memory -/

/-- A node in memory: its step, the place of the node before it, and the number of nodes up to
it. -/
structure Cell (ρ : Type) where
  step : Step ρ
  before : Option Nat
  length : Nat

/-- Nodes in the order in which they were allocated. -/
abbrev Cells (ρ : Type) := List (Cell ρ)

namespace Cells

/-- The length stored in the newest node; the empty list has none. -/
def lengthOf (cells : Cells ρ) : Option Nat → Nat
  | none => 0
  | some place => (cells[place]?).elim 0 (·.length)

/-- The step in the newest node. -/
def last? (cells : Cells ρ) (list : Option Nat) : Option (Step ρ) :=
  list.bind fun place => (cells[place]?).map (·.step)

/-- Allocates a node for one more step. -/
def push (cells : Cells ρ) (list : Option Nat) (step : Step ρ) : Cells ρ :=
  cells ++ [⟨step, list, cells.lengthOf list + 1⟩]

/-- The places and nodes met when walking back over at most so many nodes. -/
def trail (cells : Cells ρ) : (steps : Nat) → Option Nat → List (Nat × Cell ρ)
  | 0, _ => []
  | _, none => []
  | steps + 1, some place =>
    match cells[place]? with
    | none => []
    | some cell => (place, cell) :: trail cells steps cell.before

theorem trail_succ {cells : Cells ρ} {place : Nat} {cell : Cell ρ}
    (hcell : cells[place]? = some cell) (steps : Nat) :
    cells.trail (steps + 1) (some place) = (place, cell) :: cells.trail steps cell.before := by
  rw [trail, hcell]

/-- All nodes of a list, newest first. -/
def nodesOf (cells : Cells ρ) (list : Option Nat) : List (Nat × Cell ρ) :=
  cells.trail (cells.lengthOf list) list

/-- The steps of a list, first to last. -/
def toList (cells : Cells ρ) (list : Option Nat) : List (Step ρ) :=
  ((cells.nodesOf list).map (·.2.step)).reverse

/-- `other` was derived from `list`: walking back from `other`, the node with the length of `list`
is the newest one of `list`. -/
def sharesPrefix (cells : Cells ρ) (list other : Option Nat) : Bool :=
  cells.lengthOf list ≤ cells.lengthOf other &&
    ((cells.nodesOf other).find? (·.2.length == cells.lengthOf list)).map (·.1) == list

/-- The list at a place has just these nodes, newest first, where identities are counted from
`first` on. -/
inductive Holds (cells : Cells ρ) (first : Nat) : Option Nat → List (Node ρ) → Prop
  | nil : Holds cells first none []
  | cons {place : Nat} {step : Step ρ} {before : Option Nat} {rest : List (Node ρ)}
      (hcell : cells[place]? = some ⟨step, before, rest.length + 1⟩)
      (hrest : Holds cells first before rest) :
      Holds cells first (some place) (⟨first + place, step⟩ :: rest)

namespace Holds

variable {cells : Cells ρ} {first : Nat} {list other : Option Nat} {nodes nodes' : List (Node ρ)}

theorem lengthOf_eq (h : Holds cells first list nodes) : cells.lengthOf list = nodes.length := by
  cases h with
  | nil => rfl
  | cons hcell _ => simp [lengthOf, hcell]

/-- The newest node is where the list is. -/
theorem head?_eq (h : Holds cells first list nodes) :
    nodes.head?.map (·.id) = list.map (first + ·) := by
  cases h <;> rfl

theorem last?_eq (h : Holds cells first list nodes) :
    cells.last? list = nodes.head?.map (·.step) := by
  cases h with
  | nil => rfl
  | cons hcell _ => simp [last?, hcell]

/-- Allocating changes nothing that is there. -/
theorem append (h : Holds cells first list nodes) (more : Cells ρ) :
    Holds (cells ++ more) first list nodes := by
  induction h with
  | nil => exact .nil
  | @cons place _ _ _ hcell _ ih =>
    refine .cons ?_ ih
    have hplace : place < cells.length := (List.getElem?_eq_some_iff.mp hcell).1
    rw [List.getElem?_append_left hplace, hcell]

theorem push (h : Holds cells first list nodes) (step : Step ρ) :
    Holds (cells.push list step) first (some cells.length)
      (⟨first + cells.length, step⟩ :: nodes) := by
  refine .cons ?_ (h.append _)
  rw [Cells.push, List.getElem?_concat_length, h.lengthOf_eq]

/-- Walking back over as many nodes as there are finds them all. -/
theorem trail_eq (h : Holds cells first list nodes) :
    (cells.trail nodes.length list).map (fun node => ⟨first + node.1, node.2.step⟩) = nodes := by
  induction h with
  | nil => rfl
  | cons hcell _ ih =>
    rw [List.length_cons, trail_succ hcell]
    exact congrArg _ ih

/-- A walk over more nodes than there are finds no more. -/
theorem trail_of_le (h : Holds cells first list nodes) {steps : Nat}
    (hsteps : nodes.length ≤ steps) : cells.trail steps list = cells.nodesOf list := by
  rw [nodesOf, h.lengthOf_eq]
  induction h generalizing steps with
  | nil => cases steps <;> rfl
  | @cons place step before rest hcell _ ih =>
    obtain ⟨steps, rfl⟩ : ∃ n, steps = n + 1 := ⟨steps - 1, by simp at hsteps; omega⟩
    rw [List.length_cons, trail_succ hcell, trail_succ hcell,
      ih (Nat.le_of_succ_le_succ hsteps)]

/-- The walk back ends at a node that has none before it. -/
theorem before_eq_none_of_getLast? (h : Holds cells first list nodes) {last : Nat × Cell ρ}
    (hlast : (cells.nodesOf list).getLast? = some last) : last.2.before = none := by
  rw [nodesOf, h.lengthOf_eq] at hlast
  induction h with
  | nil => contradiction
  | @cons place step before rest hcell hrest ih =>
    rw [List.length_cons, trail_succ hcell] at hlast
    cases hrest with
    | nil =>
      -- nothing is left to walk over
      have hlast : some (place, (⟨step, none, 1⟩ : Cell ρ)) = some last := hlast
      injection hlast with hlast
      rw [← hlast]
    | cons hcell' hrest' =>
      rw [List.length_cons, trail_succ hcell'] at hlast ih
      rw [List.getLast?_cons_cons] at hlast
      exact ih hlast

theorem toList_eq (h : Holds cells first list nodes) :
    cells.toList list = (nodes.map (·.step)).reverse := by
  have htrail := congrArg (List.map (·.step)) h.trail_eq
  rw [List.map_map] at htrail
  rw [toList, nodesOf, h.lengthOf_eq, ← htrail]
  rfl

/-- On the way back the stored lengths go down one by one, so a length is found at the node that has
as many nodes up to it. -/
theorem find?_trail_eq (h : Holds cells first list nodes) {length : Nat}
    (hlength : length ≤ nodes.length) :
    ((cells.trail nodes.length list).find? (·.2.length == length)).map (first + ·.1) =
      (nodes.drop (nodes.length - length)).head?.map (·.id) := by
  induction h with
  | nil => simp [trail]
  | @cons place step before rest hcell hrest ih =>
    rw [List.length_cons] at hlength ⊢
    rw [trail_succ hcell]
    by_cases hfound : length = rest.length + 1
    · rw [List.find?_cons_of_pos (by simp [hfound]), hfound, Nat.sub_self]
      rfl
    · have hsub : rest.length + 1 - length = rest.length - length + 1 := by omega
      rw [List.find?_cons_of_neg (by simpa using Ne.symm hfound), hsub, List.drop_succ_cons]
      exact ih (by omega)

/-- Looking for a list by stored lengths tells what the identities of the nodes tell. -/
theorem sharesPrefix_eq (h : Holds cells first list nodes) (h' : Holds cells first other nodes') :
    cells.sharesPrefix list other = (StepList.mk nodes).sharesPrefixWith ⟨nodes'⟩ := by
  rw [sharesPrefix, nodesOf, h.lengthOf_eq, h'.lengthOf_eq, StepList.sharesPrefixWith]
  by_cases hlength : nodes.length ≤ nodes'.length
  · have hfound := h'.find?_trail_eq hlength
    have hinjective : Function.Injective (Option.map (first + ·)) :=
      Option.map_injective fun _ _ => Nat.add_left_cancel
    simp only [StepList.length, hlength, decide_true, Bool.true_and]
    rw [← hfound, h.head?_eq, Bool.eq_iff_iff, beq_iff_eq, beq_iff_eq, ← hinjective.eq_iff,
      Option.map_map]
    rfl
  · simp [StepList.length, hlength]

end Holds

end Cells

/-! ## Shelves in memory -/

/-- Nodes, and the places of lists by number, of which the first one is empty. -/
structure Memory (ρ : Type) where
  cells : Cells ρ := []
  lists : List (Option Nat) := [none]

namespace Memory

/-- The place of a list; one that was never put up is empty. -/
def get (memory : Memory ρ) (list : Nat) : Option Nat := memory.lists.getD list none

/-- Allocates a node for each of some steps after a list. -/
def collect (cells : Cells ρ) (list : Option Nat) : List (Step ρ) → Cells ρ × Option Nat
  | [] => (cells, list)
  | step :: rest => collect (cells.push list step) (some cells.length) rest

/-- Puts up one more list: some steps after a list. -/
def extend (memory : Memory ρ) (list : Option Nat) (steps : List (Step ρ)) : Memory ρ :=
  let (cells, list) := collect memory.cells list steps
  ⟨cells, memory.lists ++ [list]⟩

/-- Does with nodes and places what is done to a shelf. -/
def edit (memory : Memory ρ) : Shelf.Edit ρ → Memory ρ
  | .push list step => memory.extend (memory.get list) [step]
  | .collect steps => memory.extend none steps
  | .copy list => memory.extend (memory.get list) []
  | .clear list => { memory with lists := memory.lists.set list none }

def editAll (memory : Memory ρ) (edits : List (Shelf.Edit ρ)) : Memory ρ :=
  edits.foldl edit memory

end Memory

/-! ## Runs of edits -/

namespace Shelf

/-- Puts up one more list: some steps after a list. -/
def extend (shelf : Shelf ρ) (list : StepList ρ) (steps : List (Step ρ)) :
    Building (StepList ρ × Shelf ρ) := do
  let list ← list.collect steps
  return (list, shelf.put list)

/-- Edits a shelf again and again. -/
def editAll (shelf : Shelf ρ) : List (Edit ρ) → Building (Shelf ρ)
  | [] => return shelf
  | e :: rest => do (← shelf.edit e).2.editAll rest

theorem editAll_append (shelf : Shelf ρ) (edits more : List (Edit ρ)) (supply : Supply) :
    shelf.editAll (edits ++ more) supply =
      (shelf.editAll edits supply).1.editAll more (shelf.editAll edits supply).2 := by
  induction edits generalizing shelf supply with
  | nil => rfl
  | cons e rest ih => exact ih _ _

theorem get_eq (shelf : Shelf ρ) (list : Nat) :
    shelf.get list = shelf.lists.toList.getD list .empty := by
  rw [get, Array.getD_eq_getD_getElem?, List.getD_eq_getElem?_getD, Array.getElem?_toList]

end Shelf

/-! ## A memory that is edited like a shelf -/

namespace Memory

/-- The lists on a shelf are those in memory, and its next node is the next one to be allocated. -/
structure Mirrors (memory : Memory ρ) (first : Nat) (shelf : Shelf ρ) (supply : Supply) : Prop where
  nextNode_eq : supply.nextNode = first + memory.cells.length
  lists : List.Forall₂ (fun list steps => memory.cells.Holds first list steps.newestFirst)
    memory.lists shelf.lists.toList

namespace Mirrors

variable {memory : Memory ρ} {first : Nat} {shelf : Shelf ρ} {supply : Supply}

theorem get (h : memory.Mirrors first shelf supply) (list : Nat) :
    memory.cells.Holds first (memory.get list) (shelf.get list).newestFirst := by
  rw [shelf.get_eq, Memory.get, List.getD_eq_getElem?_getD, List.getD_eq_getElem?_getD]
  have hlength := h.lists.length_eq
  by_cases hlist : list < memory.lists.length
  · have hpair := h.lists.get hlist (hlength ▸ hlist)
    rw [List.getElem?_eq_getElem hlist, List.getElem?_eq_getElem (hlength ▸ hlist)]
    exact hpair
  · have hbeyond := Nat.not_lt.mp hlist
    rw [List.getElem?_eq_none hbeyond, List.getElem?_eq_none (hlength ▸ hbeyond)]
    exact .nil

end Mirrors

/-- Collecting allocates one node after another. -/
theorem holds_collect {cells : Cells ρ} {first : Nat} {list : Option Nat} {steps : StepList ρ}
    {supply : Supply} (h : cells.Holds first list steps.newestFirst)
    (hnext : supply.nextNode = first + cells.length) (rest : List (Step ρ)) :
    (collect cells list rest).1.Holds first (collect cells list rest).2
        (steps.collect rest supply).1.newestFirst ∧
      (steps.collect rest supply).2.nextNode = first + (collect cells list rest).1.length ∧
      cells <+: (collect cells list rest).1 := by
  induction rest generalizing cells list steps supply with
  | nil => exact ⟨h, hnext, List.prefix_rfl⟩
  | cons step rest ih =>
    have hpush : (cells.push list step).Holds first (some cells.length)
        (steps.push supply.nextNode step).newestFirst := by
      rw [hnext]
      exact h.push step
    have hafter : { supply with nextNode := supply.nextNode + 1 }.nextNode =
        first + (cells.push list step).length := by
      show supply.nextNode + 1 = _
      rw [hnext, Cells.push, List.length_append, List.length_singleton, Nat.add_assoc]
    obtain ⟨hholds, hnode, hprefix⟩ := ih hpush hafter
    exact ⟨hholds, hnode, (List.prefix_append _ _).trans hprefix⟩

variable {memory : Memory ρ} {first : Nat} {shelf : Shelf ρ} {supply : Supply}

theorem mirrors_extend (h : memory.Mirrors first shelf supply) {list : Option Nat}
    {steps : StepList ρ} (hlist : memory.cells.Holds first list steps.newestFirst)
    (more : List (Step ρ)) :
    (memory.extend list more).Mirrors first (shelf.extend steps more supply).1.2
      (shelf.extend steps more supply).2 := by
  obtain ⟨hholds, hnode, cells, hcells⟩ := holds_collect hlist h.nextNode_eq more
  refine ⟨hnode, ?_⟩
  -- the lists that are there stay, and the new one has its nodes
  have hkept := h.lists.imp fun _ _ hold => hold.append cells
  rw [hcells] at hkept
  show List.Forall₂ _ (memory.lists ++ [_]) (shelf.lists.push _).toList
  rw [Array.toList_push]
  exact List.rel_append hkept (.cons hholds .nil)

/-- An edit does the same in memory and to the shelf. -/
theorem mirrors_edit (h : memory.Mirrors first shelf supply) (e : Shelf.Edit ρ) :
    (memory.edit e).Mirrors first (shelf.edit e supply).1.2 (shelf.edit e supply).2 := by
  cases e with
  | push list step => exact mirrors_extend h (h.get list) [step]
  | collect steps => exact mirrors_extend h .nil steps
  | copy list => exact mirrors_extend h (h.get list) []
  | clear list =>
    refine ⟨h.nextNode_eq, ?_⟩
    show List.Forall₂ _ (memory.lists.set list none) (shelf.lists.setIfInBounds list .empty).toList
    rw [Array.toList_setIfInBounds]
    exact forall₂_set h.lists .nil list

/-- So does a run of edits. -/
theorem mirrors_editAll (h : memory.Mirrors first shelf supply) (edits : List (Shelf.Edit ρ)) :
    (memory.editAll edits).Mirrors first (shelf.editAll edits supply).1
      (shelf.editAll edits supply).2 := by
  induction edits generalizing memory shelf supply with
  | nil => exact h
  | cons e rest ih => exact ih (mirrors_edit h e)

/-- A memory and a shelf without lists but the empty one. -/
theorem mirrors_start (supply : Supply) :
    Mirrors ({} : Memory ρ) supply.nextNode {} supply :=
  ⟨rfl, .cons .nil .nil⟩

/-- Whatever was done in memory, the walk back from a list ends where no node comes before: the last
node that it meets has none before it, and leave to walk on finds no more nodes. -/
theorem trail_ends (edits : List (Shelf.Edit ρ)) (list : Nat) :
    let memory := ({} : Memory ρ).editAll edits
    (∀ last, (memory.cells.nodesOf (memory.get list)).getLast? = some last →
      last.2.before = none) ∧
    ∀ steps, memory.cells.lengthOf (memory.get list) ≤ steps →
      memory.cells.trail steps (memory.get list) = memory.cells.nodesOf (memory.get list) := by
  have hholds := (mirrors_editAll (mirrors_start {}) edits).get list
  constructor
  · intro last hlast
    exact hholds.before_eq_none_of_getLast? hlast
  · intro steps hsteps
    rw [hholds.lengthOf_eq] at hsteps
    exact hholds.trail_of_le hsteps

end Memory

end Gremlin
