import Gremlin.Proofs.Modes
import Gremlin.Proofs.Reader
import Gremlin.Proofs.Rewriting

/-!
# Reading scripts back

Reading the text that has been written for a tree gives the tree again, up to the width of
integers, which the text does not show. So no two readable trees have one text, whatever their
texts and keys contain.

The proof follows the tree. Each part of it is read back whatever comes next, as long as that
cannot be taken for more of the same part: a comma or a parenthesis may follow, or nothing.

* `readTree_append`, with `readSteps_append`, `readParts_append` and `readPart_append`: what has
  been written for a tree, and so on, is read back and ends where it did;
* `Dialect.plain_inlined_injective`: what that means for scripts.
-/

namespace Gremlin

variable {ρ : Type}

/-! ## Readable trees -/

namespace Tree

mutual

/-- Graphs and steps are named by identifiers, words are paths other than those that spell a
literal, no nested traversal is without steps, and there are no doubles and no entities. Texts and
keys may be anything. -/
inductive IsReadable : Tree ρ → Prop where
  | intro {graph : String} {steps : List (Tree.Step ρ)} (hgraph : Text.IsIdentifier graph)
      (hsteps : ∀ s ∈ steps, Step.IsReadable s) : IsReadable ⟨graph, steps⟩

inductive Step.IsReadable : Tree.Step ρ → Prop where
  | intro {name : String} {parts : List (Tree.Part ρ)} (hname : Text.IsIdentifier name)
      (hparts : ∀ p ∈ parts, Part.IsReadable p) : Step.IsReadable ⟨name, parts⟩

inductive Part.IsReadable : Tree.Part ρ → Prop where
  | null : Part.IsReadable (.value .null)
  | bool (b : Bool) : Part.IsReadable (.value (.bool b))
  | int (n : Int32) : Part.IsReadable (.value (.int n))
  | long (n : Int64) : Part.IsReadable (.value (.long n))
  | text (s : String) : Part.IsReadable (.value (.text s))
  | key (name : String) : Part.IsReadable (.key name)
  | token {word : String} (hpath : Text.IsPath word)
      (hliteral : word ∉ ["null", "true", "false"]) : Part.IsReadable (.token word)
  | nested {x : Tree ρ} (hsteps : x.steps ≠ []) (hx : IsReadable x) :
      Part.IsReadable (.nested x)

end

/-- An integer of either width as a 64-bit integer, and any other value as it is. -/
def widen : Bindable ρ → Bindable ρ
  | ⟨.int n, _⟩ => .long n.toInt64
  | b => b

/-- The tree with all integers as 64-bit integers. -/
def widened (x : Tree ρ) : Tree ρ := x.rewrite id widen

end Tree

/-! ## The text of trees -/

namespace Piece

/-- The characters of pieces with literals as they are inlined. -/
def chars (ps : List (Piece ρ)) : List Char := (text Output.inlineText ps).toList

@[simp] theorem chars_nil : chars ([] : List (Piece ρ)) = [] := rfl

@[simp] theorem chars_fixed (s : String) (ps : List (Piece ρ)) :
    chars (.fixed s :: ps) = s.toList ++ chars ps :=
  String.toList_append

@[simp] theorem chars_value (b : Bindable ρ) (ps : List (Piece ρ)) :
    chars (.value b :: ps) = (Output.inlineText b.val).toList ++ chars ps :=
  String.toList_append

@[simp] theorem chars_append (ps qs : List (Piece ρ)) :
    chars (ps ++ qs) = chars ps ++ chars qs := by
  induction ps with
  | nil => rfl
  | cons p rest ih => cases p <;> simp [ih]

@[simp] theorem chars_separated_nil (mark : String) (separate : Bool) :
    chars (separated mark separate ([] : List (List (Piece ρ)))) = [] := rfl

@[simp] theorem chars_separated_cons (mark : String) (separate : Bool) (group : List (Piece ρ))
    (groups : List (List (Piece ρ))) :
    chars (separated mark separate (group :: groups)) =
      (if separate then mark.toList else []) ++
        (chars group ++ chars (separated mark true groups)) := by
  cases separate <;> simp [separated]

end Piece

namespace Tree

/-- The characters of a tree with literals as they are inlined. -/
def chars (x : Tree ρ) : List Char := Piece.chars x.pieces

/-- The characters of steps that come after a graph or after another step. -/
def stepChars (steps : List (Tree.Step ρ)) : List Char :=
  Piece.chars (Piece.separated "." true (stepGroups steps))

/-- The characters of parameters that come after another one or are the first. -/
def partChars (separate : Bool) (parts : List (Tree.Part ρ)) : List Char :=
  Piece.chars (Piece.separated ", " separate (partGroups parts))

/-- The characters of a parameter. -/
def Part.chars (p : Tree.Part ρ) : List Char := Piece.chars p.pieces

theorem chars_mk {graph : String} (hgraph : Text.IsIdentifier graph)
    (steps : List (Tree.Step ρ)) : chars ⟨graph, steps⟩ = graph.toList ++ stepChars steps := by
  have hnonempty : (!graph.isEmpty) = true := by
    rcases hgraph.1 with ⟨c, rest, hcs, _⟩
    rw [Bool.not_eq_true', Bool.eq_false_iff]
    intro hempty
    rw [String.isEmpty_iff.mp hempty] at hcs
    contradiction
  rw [chars, pieces, Piece.chars_fixed, hnonempty]
  rfl

theorem stepChars_cons (name : String) (parts : List (Tree.Part ρ)) (others : List (Tree.Step ρ))
    (rest : List Char) :
    stepChars (⟨name, parts⟩ :: others) ++ rest =
      '.' :: (name.toList ++ '(' :: (partChars false parts ++ ')' ::
        (stepChars others ++ rest))) := by
  simp [stepChars, partChars, stepGroups, Step.pieces]

theorem partChars_cons (separate : Bool) (p : Tree.Part ρ) (others : List (Tree.Part ρ))
    (rest : List Char) :
    partChars separate (p :: others) ++ rest =
      (if separate then ", ".toList else []) ++ (p.chars ++ (partChars true others ++ rest)) := by
  simp [partChars, Part.chars, partGroups]

theorem Part.chars_value (b : Bindable ρ) :
    (value b).chars = (Output.inlineText b.val).toList := by
  simp [chars, Part.pieces]

theorem Part.chars_key (name : String) :
    (key name : Tree.Part ρ).chars = (Text.quoted '"' name).toList := by
  simp [chars, Part.pieces]

theorem Part.chars_token (word : String) : (token word : Tree.Part ρ).chars = word.toList := by
  simp [chars, Part.pieces]

theorem Part.chars_nested (x : Tree ρ) : (nested x).chars = x.chars := rfl

end Tree

namespace Reading

open Text

/-! ### Where parts end -/

/-- A graph ends where the steps after it begin. -/
theorem not_isWordChar_stepChars (steps : List (Tree.Step ρ)) {rest : List Char}
    (hrest : Stops rest) :
    ∀ c ∈ (Tree.stepChars steps ++ rest).head?, isWordChar c = false := by
  intro c hc
  cases steps with
  | nil =>
    have hpath := hrest.not_isPathChar c hc
    exact isWordChar_of_isPathChar_eq_false hpath
  | cons s others =>
    rcases s with ⟨name, parts⟩
    rw [Tree.stepChars_cons] at hc
    injection hc with hc
    rw [← hc]
    rfl

/-- A parameter ends where the others in its list follow. -/
theorem stops_partChars (others : List (Tree.Part ρ)) (rest : List Char) :
    Stops (Tree.partChars true others ++ ')' :: rest) := by
  intro c hc
  cases others with
  | nil =>
    injection hc with hc
    exact Or.inr hc.symm
  | cons p others =>
    rw [Tree.partChars_cons] at hc
    injection hc with hc
    exact Or.inl hc.symm

/-- A tree with steps begins with a path that has a parenthesis after it. -/
theorem exists_path_of_steps {x : Tree ρ} (hx : x.IsReadable) (hsteps : x.steps ≠ [])
    (rest : List Char) :
    ∃ path inside, IsPath path ∧ x.chars ++ rest = path.toList ++ '(' :: inside := by
  rcases hx with @⟨graph, _ | ⟨⟨name, parts⟩, others⟩, hgraph, hreadable⟩
  · exact absurd rfl hsteps
  · cases hreadable _ List.mem_cons_self with
    | intro hname _ =>
      have hpath : IsPath (graph ++ "." ++ name) := .join hgraph (.word hname)
      refine ⟨graph ++ "." ++ name,
        Tree.partChars false parts ++ ')' :: (Tree.stepChars others ++ rest), hpath, ?_⟩
      rw [Tree.chars_mk hgraph, List.append_assoc, Tree.stepChars_cons]
      simp

/-- No parameter begins with a closing parenthesis. -/
theorem exists_cons_of_part {p : Tree.Part ρ} (hp : p.IsReadable) :
    ∃ c cs, p.chars = c :: cs ∧ c ≠ ')' := by
  have hinteger : ∀ n : Int, ∃ c cs, (toString n).toList = c :: cs ∧ c ≠ ')' := by
    intro n
    rcases exists_cons_of_integer n with ⟨c, cs, hcs, rfl | hdigit⟩
    · exact ⟨'-', cs, hcs, by decide⟩
    · exact ⟨c, cs, hcs, ne_of_class hdigit rfl⟩
  have hpath : ∀ word, IsPath word → ∃ c cs, word.toList = c :: cs ∧ c ≠ ')' := by
    intro word hword
    rcases hword.initial with ⟨c, cs, hcs, hc⟩
    exact ⟨c, cs, hcs, ne_of_class hc rfl⟩
  cases hp with
  | null =>
    rw [Tree.Part.chars_value]
    exact hpath "null" (isPath_literal (by simp))
  | bool b =>
    rw [Tree.Part.chars_value]
    cases b with
    | false => exact hpath "false" (isPath_literal (by simp))
    | true => exact hpath "true" (isPath_literal (by simp))
  | int n =>
    rw [Tree.Part.chars_value]
    exact hinteger n.toInt
  | long n =>
    rw [Tree.Part.chars_value]
    exact hinteger n.toInt
  | text s =>
    rw [Tree.Part.chars_value]
    exact ⟨Char.ofNat 39, _, String.toList_ofList, by decide⟩
  | key name =>
    rw [Tree.Part.chars_key]
    exact ⟨'"', _, String.toList_ofList, by decide⟩
  | token hword _ =>
    rw [Tree.Part.chars_token]
    exact hpath _ hword
  | @nested x _ hx =>
    rcases hx with @⟨graph, steps, hgraph, _⟩
    rcases hgraph.1 with ⟨c, cs, hcs, hc⟩
    rw [Tree.Part.chars_nested, Tree.chars_mk hgraph, hcs]
    exact ⟨c, _, List.cons_append, ne_of_class hc rfl⟩

/-! ## Reading trees -/

/-- With enough room the reader gives the result. -/
def Reads {α : Type} (read : Nat → Option α) (result : α) : Prop :=
  ∃ enough, ∀ room, enough ≤ room → read room = some result

namespace Reads

variable {α β : Type} {read : Nat → Option α} {a : α}

theorem of_succ (enough : Nat) (h : ∀ room, enough ≤ room → read (room + 1) = some a) :
    Reads read a := by
  refine ⟨enough + 1, ?_⟩
  intro room hroom
  obtain ⟨room, rfl⟩ : ∃ n, room = n + 1 := ⟨room - 1, by omega⟩
  exact h room (by omega)

/-- There is room that is enough for two readers. -/
theorem both {read' : Nat → Option β} {b : β} (ha : Reads read a) (hb : Reads read' b) :
    ∃ enough, ∀ room, enough ≤ room → read room = some a ∧ read' room = some b := by
  rcases ha with ⟨m, hm⟩
  rcases hb with ⟨n, hn⟩
  refine ⟨max m n, ?_⟩
  intro room hroom
  exact ⟨hm room (by omega), hn room (by omega)⟩

theorem unique {b : α} (ha : Reads read a) (hb : Reads read b) : a = b := by
  rcases ha.both hb with ⟨enough, hboth⟩
  rcases hboth enough (Nat.le_refl _) with ⟨hread, hread'⟩
  rw [hread] at hread'
  injection hread'

end Reads

/-- A readable parameter that is no traversal is read back. -/
theorem readPart_leaf {rest : List Char} (hrest : Stops rest) {p : Tree.Part ρ}
    (hp : p.IsReadable) (hleaf : ∀ x, p ≠ .nested x) (room : Nat) :
    readPart (p.chars ++ rest) (room + 1) = some (p.rewrite id Tree.widen, rest) := by
  cases hp with
  | nested => exact absurd rfl (hleaf _)
  | null =>
    have hword : IsPath "null" := isPath_literal (by simp)
    rw [Tree.Part.chars_value]
    exact readPart_word hword hrest
  | bool b =>
    rw [Tree.Part.chars_value]
    cases b with
    | false =>
      have hword : IsPath "false" := isPath_literal (by simp)
      exact readPart_word hword hrest
    | true =>
      have hword : IsPath "true" := isPath_literal (by simp)
      exact readPart_word hword hrest
  | int n =>
    rw [Tree.Part.chars_value]
    refine (readPart_integer n.toInt hrest).trans ?_
    rw [Int64.ofInt_int32ToInt]
    rfl
  | long n =>
    rw [Tree.Part.chars_value]
    refine (readPart_integer n.toInt hrest).trans ?_
    rw [Int64.ofInt_toInt]
    rfl
  | text s =>
    rw [Tree.Part.chars_value]
    exact readPart_text s
  | key name =>
    rw [Tree.Part.chars_key]
    exact readPart_key name
  | token hword hliteral =>
    rw [Tree.Part.chars_token]
    exact readPart_token hword hliteral hrest

mutual

/-- A readable tree is read back and ends where it did. -/
theorem readTree_append {rest : List Char} (hrest : Stops rest) : (x : Tree ρ) → x.IsReadable →
    Reads (readTree (x.chars ++ rest)) (x.widened, rest)
  | ⟨graph, steps⟩, .intro hgraph hsteps => by
    rcases readSteps_append hrest steps hsteps with ⟨enough, hread⟩
    rw [Tree.chars_mk hgraph, List.append_assoc]
    apply Reads.of_succ enough
    intro room hroom
    rw [readTree_of_identifier hgraph (not_isWordChar_stepChars steps hrest), hread room hroom]
    rfl

theorem readSteps_append {rest : List Char} (hrest : Stops rest) : (steps : List (Tree.Step ρ)) →
    (∀ s ∈ steps, s.IsReadable) →
    Reads (readSteps (Tree.stepChars steps ++ rest)) (Tree.rewriteSteps id Tree.widen steps, rest)
  | [], _ => .of_succ 0 fun _ _ => readSteps_of_stops hrest
  | ⟨name, parts⟩ :: others, h => by
    have hothers : ∀ s ∈ others, s.IsReadable := fun s hs => h s (List.mem_cons_of_mem _ hs)
    cases h _ List.mem_cons_self with
    | intro hname hparts =>
      have hinside := readParts_append (Tree.stepChars others ++ rest) false parts hparts
      have hafter := readSteps_append hrest others hothers
      rcases hinside.both hafter with ⟨enough, hread⟩
      rw [Tree.stepChars_cons]
      apply Reads.of_succ enough
      intro room hroom
      rcases hread room hroom with ⟨hparameters, hsteps⟩
      rw [readSteps_of_point hname, hparameters]
      show (readSteps (Tree.stepChars others ++ rest) room >>= _) = _
      rw [hsteps]
      rfl

theorem readParts_append (rest : List Char) (separate : Bool) : (parts : List (Tree.Part ρ)) →
    (∀ p ∈ parts, p.IsReadable) →
    Reads (readParts separate (Tree.partChars separate parts ++ ')' :: rest))
      (Tree.rewriteParts id Tree.widen parts, rest)
  | [], _ => .of_succ 0 fun _ _ => rfl
  | p :: others, h => by
    have hothers : ∀ q ∈ others, q.IsReadable := fun q hq => h q (List.mem_cons_of_mem _ hq)
    have hfirst := readPart_append (stops_partChars others rest) p (h p List.mem_cons_self)
    have hafter := readParts_append rest true others hothers
    rcases hfirst.both hafter with ⟨enough, hread⟩
    rcases exists_cons_of_part (h p List.mem_cons_self) with ⟨c, cs, hcs, hc⟩
    rw [Tree.partChars_cons]
    apply Reads.of_succ enough
    intro room hroom
    rcases hread room hroom with ⟨hparameter, hparameters⟩
    rw [hcs, List.cons_append] at hparameter ⊢
    rw [readParts_of_part separate hc, hparameter]
    show (readParts true (Tree.partChars true others ++ ')' :: rest) room >>= _) = _
    rw [hparameters]
    rfl

theorem readPart_append {rest : List Char} (hrest : Stops rest) : (p : Tree.Part ρ) →
    p.IsReadable → Reads (readPart (p.chars ++ rest)) (p.rewrite id Tree.widen, rest)
  | .value _, h => .of_succ 0 fun room _ => readPart_leaf hrest h (by simp) room
  | .key _, h => .of_succ 0 fun room _ => readPart_leaf hrest h (by simp) room
  | .token _, h => .of_succ 0 fun room _ => readPart_leaf hrest h (by simp) room
  | .nested x, .nested hsteps hx => by
    rcases readTree_append hrest x hx with ⟨enough, hread⟩
    rcases exists_path_of_steps hx hsteps rest with ⟨path, inside, hpath, htext⟩
    rw [Tree.Part.chars_nested]
    apply Reads.of_succ enough
    intro room hroom
    have hnested := hread room hroom
    rw [htext] at hnested ⊢
    rw [readPart_nested hpath, hnested]
    rfl

end

end Reading

/-! ## Scripts -/

namespace Dialect

/-- What the plain dialect writes with inlined literals are the characters of the tree. -/
theorem text_of_plain {t : Traversal ρ} {x : Tree ρ} {s : Script} (ht : t.tree = .ok x)
    (hs : plain.compile t true = .ok s) : s.text.toList = x.chars := by
  rw [compile_eq_draft isReady_plain] at hs
  rcases map_eq_ok_iff.mp hs with ⟨ps, hps, rfl⟩
  have hpieces := Draft.within_plain_eq_ok hps
  simp only [Atom.pieces, Value.part, ht, Except.map, Tree.Part.pieces] at hpieces
  injection hpieces with hpieces
  rw [script_inlined, ← hpieces]
  rfl

/-- A script of a readable tree is read back whole. -/
theorem reads_of_plain {t : Traversal ρ} {x : Tree ρ} {s : Script} (ht : t.tree = .ok x)
    (hx : x.IsReadable) (hs : plain.compile t true = .ok s) :
    Reading.Reads (Reading.readTree s.text.toList) (x.widened, []) := by
  have hend : Reading.Stops [] := by simp [Reading.Stops]
  have hread := Reading.readTree_append hend x hx
  rw [List.append_nil, ← text_of_plain ht hs] at hread
  exact hread

/-- With inlined literals the plain dialect writes no two readable trees in the same way, apart
from the width of integers. -/
theorem plain_inlined_injective {t t' : Traversal ρ} {x x' : Tree ρ} {s s' : Script}
    (ht : t.tree = .ok x) (ht' : t'.tree = .ok x') (hx : x.IsReadable) (hx' : x'.IsReadable)
    (hs : plain.compile t true = .ok s) (hs' : plain.compile t' true = .ok s')
    (htext : s.text = s'.text) : x.widened = x'.widened := by
  have hread := reads_of_plain ht hx hs
  have hread' := reads_of_plain ht' hx' hs'
  rw [htext] at hread
  exact congrArg Prod.fst (hread.unique hread')

end Dialect

/-! ### An example -/

/-- A search in which a text and a key look like parts of the script, for a given number. -/
def Traversal.deceptive (n : Value Unit) : Traversal Unit :=
  ⟨"g", .ofList
    [⟨"has", [.key "name\").drop(\"", .text "\\'), __.drop('"]⟩,
     ⟨"where", [.traversal ⟨"__", .ofList [⟨"is", [n]⟩], default, 0, ∅⟩, .token "T.id", .null]⟩],
    default, 0, ∅⟩

/-- The tree of the search. -/
def Tree.deceptive (n : Bindable Unit) : Tree Unit :=
  ⟨"g",
    [⟨"has", [.key "name\").drop(\"", .value (.text "\\'), __.drop('")]⟩,
     ⟨"where", [.nested ⟨"__", [⟨"is", [.value n]⟩]⟩, .token "T.id", .value .null]⟩]⟩

theorem Tree.isReadable_deceptive {n : Bindable Unit} (hn : Part.IsReadable (.value n)) :
    (Tree.deceptive n).IsReadable := by
  have hname : ∀ s ∈ ["g", "__", "has", "where", "is", "T", "id"], Text.IsIdentifier s := by
    intro s hs
    simp only [List.mem_cons, List.not_mem_nil, or_false] at hs
    rcases hs with rfl | rfl | rfl | rfl | rfl | rfl | rfl <;> exact .of_toList rfl rfl rfl
  have hpath : Text.IsPath ("T" ++ "." ++ "id") :=
    .join (hname "T" (by simp)) (.word (hname "id" (by simp)))
  have hinner : IsReadable (⟨"__", [⟨"is", [.value n]⟩]⟩ : Tree Unit) := by
    refine .intro (hname "__" (by simp)) (List.forall_mem_singleton.mpr ?_)
    exact .intro (hname "is" (by simp)) (List.forall_mem_singleton.mpr hn)
  refine .intro (hname "g" (by simp)) (List.forall_mem_cons.mpr ⟨?_, ?_⟩)
  · refine .intro (hname "has" (by simp)) (List.forall_mem_cons.mpr ⟨.key _, ?_⟩)
    exact List.forall_mem_singleton.mpr (.text _)
  · refine List.forall_mem_singleton.mpr (.intro (hname "where" (by simp)) ?_)
    refine List.forall_mem_cons.mpr ⟨.nested (by simp) hinner, List.forall_mem_cons.mpr ⟨?_, ?_⟩⟩
    · exact .token hpath (by decide)
    · exact List.forall_mem_singleton.mpr .null

namespace Dialect

theorem plain_inlined_injective_deceptive :
    ∃ s, plain.compile (Traversal.deceptive (.int 3)) true = .ok s ∧
      plain.compile (Traversal.deceptive (.long 3)) true = .ok s ∧
      (Tree.deceptive (.int 3)).widened = (Tree.deceptive (.long 3)).widened := by
  have hreadable := Tree.isReadable_deceptive (.int 3)
  have hreadable' := Tree.isReadable_deceptive (.long 3)
  have hs : ∃ s, plain.compile (Traversal.deceptive (.int 3)) true = .ok s := ⟨_, rfl⟩
  rcases hs with ⟨s, hs⟩
  have hs' : plain.compile (Traversal.deceptive (.long 3)) true = .ok s := by
    rw [← hs]
    rfl
  exact ⟨s, hs, hs', plain_inlined_injective rfl rfl hreadable hreadable' hs hs' rfl⟩

end Dialect

end Gremlin
