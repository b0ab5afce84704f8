import Gremlin.Proofs.BytecodeScript
import Gremlin.Proofs.Fields

/-!
# Bytecode read back

An argument is sent as its JSON, with no mark of whether it is a plain value or nested bytecode.
The two are told apart because nested bytecode has a list for its steps, and in the JSON of a value
there is no list, whatever the names and members of an entity are.

* `Json.IsListFree`: what the JSON of values is like, by `Value.isListFree_toJson`;
* `Bytecode.ofJson?`: reads bytecode from its JSON;
* `Argument.IsReadBack`: an argument that is told apart from others, and
  `Bytecode.isReadBack_argument`, that all arguments are that bytecode is made with;
* `Traversal.bytecode_recovered`: bytecode of traversals is read back from its JSON.
-/

namespace Gremlin

variable {ρ σ : Type}

/-! ## Values have no lists -/

namespace Json

/-- There is no list in it, at any depth. -/
inductive IsListFree : Json → Prop
  | null : IsListFree .null
  | bool (b : Bool) : IsListFree (.bool b)
  | int (n : Int) : IsListFree (.int n)
  | float (x : Double) : IsListFree (.float x)
  | text (s : String) : IsListFree (.text s)
  | object {fields : List (String × Json)} (hfields : ∀ f ∈ fields, IsListFree f.2) :
    IsListFree (.object fields)

theorem isListFree_ofDouble (x : Double) : (ofDouble x).IsListFree := by
  rw [ofDouble]
  split
  · exact .float x
  · exact .null

theorem isListFree_ofFields {fields : List (String × Json)} (h : ∀ f ∈ fields, f.2.IsListFree) :
    (ofFields fields).IsListFree := by
  obtain ⟨sorted, hsorted, -, hmem⟩ := exists_ofFields fields
  rw [hsorted]
  exact .object fun f hf => h f (hmem f hf)

end Json

mutual

/-- An entity is an object of its members, and a nested traversal is only shown. -/
theorem Value.isListFree_toJson : (v : Value ρ) → v.toJson.IsListFree
  | .null => .null
  | .bool b => .bool b
  | .int n => .int n.toInt
  | .long n => .int n.toInt
  | .float x => Json.isListFree_ofDouble x
  | .text s | .key s | .token s | .elementType s => .text s
  | .member m => .text m.text
  | .entity e => e.isListFree_toJson
  | .traversal t => .text t.debug

theorem Entity.isListFree_toJson : (e : Entity ρ) → e.toJson.IsListFree
  | ⟨_, members⟩ => Json.isListFree_ofFields (isListFree_memberFields members)

theorem isListFree_memberFields : (members : List (String × Value ρ)) →
    ∀ f ∈ memberFields members, f.2.IsListFree
  | [] => by simp [memberFields]
  | (_, value) :: rest =>
    List.forall_mem_cons.mpr ⟨value.isListFree_toJson, isListFree_memberFields rest⟩

end

namespace Bytecode

theorem typed_eq (type : String) (value : Json) :
    typed type value = .object [("@type", .text type), ("@value", value)] :=
  Json.ofFields_pair (by decide) _ _

theorem isListFree_ofToken (word : String) : (ofToken word).IsListFree := by
  have htyped : ∀ type s, (typed type (.text s)).IsListFree := by
    intro type s
    rw [typed_eq]
    refine .object (List.forall_mem_cons.mpr ⟨.text type, ?_⟩)
    exact List.forall_mem_singleton.mpr (.text s)
  rw [ofToken]
  split
  · exact htyped _ _
  · split
    · exact htyped _ _
    · exact .text word

end Bytecode

/-! ## Reading bytecode -/

mutual

/-- Reads bytecode from its typed form. -/
def Bytecode.ofJson? : Json → Option Bytecode
  | .object [("@type", .text "g:Bytecode"), ("@value", .object body)] => Bytecode.ofBody? body
  | _ => none

/-- Reads the lists of instructions; without one for the source, there are none for it. -/
def Bytecode.ofBody? : List (String × Json) → Option Bytecode
  | [("step", .array steps)] => do
    return ⟨[], ← instructionsOfRows? steps⟩
  | [("source", .array source), ("step", .array steps)] => do
    return ⟨← instructionsOfRows? source, ← instructionsOfRows? steps⟩
  | _ => none

def instructionsOfRows? : List Json → Option (List Instruction)
  | [] => some []
  | .array (.text operator :: items) :: rest => do
    return ⟨operator, argumentsOfItems items⟩ :: (← instructionsOfRows? rest)
  | _ :: _ => none

/-- Reads what is not bytecode as plain values. -/
def argumentsOfItems : List Json → List Argument
  | [] => []
  | item :: rest =>
    (Bytecode.ofJson? item).elim (.value item) .traversal :: argumentsOfItems rest

end

namespace Bytecode

theorem ofBody?_of_isListFree {body : List (String × Json)} (h : ∀ f ∈ body, f.2.IsListFree) :
    ofBody? body = none := by
  unfold ofBody?
  split
  -- both forms of the body begin with a list
  case h_1 => nomatch h _ List.mem_cons_self
  case h_2 => nomatch h _ List.mem_cons_self
  case h_3 => rfl

/-- Without a list there are no steps, so it is no bytecode, whatever its names are. -/
theorem ofJson?_of_isListFree {json : Json} (h : json.IsListFree) : ofJson? json = none := by
  unfold ofJson?
  split
  case h_1 body =>
    cases h with
    | object hfields =>
      cases hfields ("@value", .object body) (by simp) with
      | object hbody => exact ofBody?_of_isListFree hbody
  case h_2 => rfl

end Bytecode

/-- An argument that is told apart from others by its JSON. -/
def Argument.IsReadBack (a : Argument) : Prop :=
  (Bytecode.ofJson? a.toJson).elim (.value a.toJson) .traversal = a

namespace Argument

/-- A plain value without lists is not taken for bytecode. -/
theorem isReadBack_value {json : Json} (h : json.IsListFree) : (value json).IsReadBack := by
  rw [IsReadBack, toJson, Bytecode.ofJson?_of_isListFree h]
  rfl

theorem isReadBack_traversal {code : Bytecode} (h : Bytecode.ofJson? code.toJson = some code) :
    (traversal code).IsReadBack := by
  rw [IsReadBack, toJson, h]
  rfl

end Argument

/-- An instruction with such arguments. -/
def Instruction.IsReadBack (i : Instruction) : Prop := ∀ a ∈ i.arguments, a.IsReadBack

theorem argumentsOfItems_argumentItems {arguments : List Argument}
    (h : ∀ a ∈ arguments, a.IsReadBack) :
    argumentsOfItems (argumentItems arguments) = arguments := by
  induction arguments with
  | nil => rfl
  | cons a rest ih =>
    obtain ⟨ha, hrest⟩ := List.forall_mem_cons.mp h
    rw [argumentItems, argumentsOfItems, ih hrest, ha]

theorem instructionsOfRows?_instructionRows {is : List Instruction}
    (h : ∀ i ∈ is, i.IsReadBack) :
    instructionsOfRows? (instructionRows is) = some is := by
  induction is with
  | nil => rfl
  | cons i rest ih =>
    obtain ⟨hi, hrest⟩ := List.forall_mem_cons.mp h
    obtain ⟨operator, arguments⟩ := i
    rw [instructionRows, instructionsOfRows?, ih hrest, argumentsOfItems_argumentItems hi]
    rfl

namespace Bytecode

theorem toJson_nil (steps : List Instruction) :
    toJson ⟨[], steps⟩ = .object [("@type", .text "g:Bytecode"),
      ("@value", .object [("step", .array (instructionRows steps))])] := by
  rw [toJson, typed_eq]
  rfl

theorem toJson_cons (first : Instruction) (rest steps : List Instruction) :
    toJson ⟨first :: rest, steps⟩ = .object [("@type", .text "g:Bytecode"),
      ("@value", .object [("source", .array (instructionRows (first :: rest))),
        ("step", .array (instructionRows steps))])] := by
  rw [toJson, typed_eq, Json.ofFields_pair (by decide)]

/-- Bytecode is read back if its instructions are. -/
theorem ofJson?_toJson {source steps : List Instruction}
    (hsource : ∀ i ∈ source, i.IsReadBack) (hsteps : ∀ i ∈ steps, i.IsReadBack) :
    ofJson? (toJson ⟨source, steps⟩) = some ⟨source, steps⟩ := by
  cases source with
  | nil =>
    rw [toJson_nil, ofJson?, ofBody?, instructionsOfRows?_instructionRows hsteps]
    rfl
  | cons first rest =>
    rw [toJson_cons, ofJson?, ofBody?, instructionsOfRows?_instructionRows hsource,
      instructionsOfRows?_instructionRows hsteps]
    rfl

/-! ## Bytecode of traversals -/

section Walk

variable {nested : Traversal ρ → Except Error Bytecode}

/-- An argument for a parameter is read back if nested bytecode is. -/
theorem isReadBack_argument
    (hnested : ∀ t code, nested t = .ok code → ofJson? code.toJson = some code) {v : Value ρ}
    {a : Argument} (h : argument nested v = .ok a) : a.IsReadBack := by
  cases v with
  | traversal t =>
    obtain ⟨code, hcode, rfl⟩ := map_eq_ok_iff.mp h
    exact Argument.isReadBack_traversal (hnested t code hcode)
  | token word =>
    cases h
    exact Argument.isReadBack_value (isListFree_ofToken word)
  | member m => cases h
  | elementType name => cases h
  | _ =>
    cases h
    exact Argument.isReadBack_value (Value.isListFree_toJson _)

/-- Every argument is one for a parameter. -/
theorem exists_parameter_of_resolved {scope : Scope} {raw : List (Step ρ)} {is : List Instruction}
    (h : resolved nested scope raw = .ok is) :
    ∀ i ∈ is, ∀ a ∈ i.arguments, ∃ v, argument nested v = .ok a := by
  rw [resolved_eq_mapM] at h
  obtain ⟨groups, hgroups, rfl⟩ := map_eq_ok_iff.mp h
  intro i hi a ha
  -- back from the argument to its instruction, the resolved step and the parameter
  obtain ⟨group, hgroup, hi⟩ := List.mem_flatten.mp hi
  obtain ⟨s, -, hs⟩ := exists_of_mem_right (mapM_eq_ok_iff.mp hgroups) hgroup
  obtain ⟨rs, -, hrs⟩ := bind_eq_ok_iff.mp hs
  obtain ⟨r, -, hr⟩ := exists_of_mem_right (mapM_eq_ok_iff.mp hrs) hi
  obtain ⟨arguments, harguments, rfl⟩ := map_eq_ok_iff.mp hr
  rw [arguments_eq_mapM] at harguments
  obtain ⟨v, -, hv⟩ := exists_of_mem_right (mapM_eq_ok_iff.mp harguments) ha
  exact ⟨v, hv⟩

end Walk

theorem ofJson?_of_within {levels : Nat} {t : Traversal ρ} {code : Bytecode}
    (h : within levels t = .ok code) : ofJson? code.toJson = some code := by
  induction levels generalizing t code with
  | zero =>
    cases h
    exact ofJson?_toJson (by simp) (by simp)
  | succ levels ih =>
    obtain ⟨is, his, rfl⟩ := map_eq_ok_iff.mp h
    have hread : ∀ i ∈ is, i.IsReadBack := by
      intro i hi a ha
      obtain ⟨v, hv⟩ := exists_parameter_of_resolved his i hi a ha
      exact isReadBack_argument (fun _ _ => ih) hv
    exact ofJson?_toJson (fun i hi => hread i (List.mem_of_mem_filter hi))
      (fun i hi => hread i (List.mem_of_mem_filter hi))

end Bytecode

/-- For any two traversals, bytecode made from them is read back from its JSON, so it is the same if
the JSON is: the lists of instructions, operators, arguments, and which of these are nested
bytecode. -/
theorem Traversal.bytecode_recovered {t : Traversal ρ} {t' : Traversal σ} {code code' : Bytecode}
    (h : t.bytecode = .ok code) (h' : t'.bytecode = .ok code') :
    Bytecode.ofJson? code.toJson = some code ∧ (code.toJson = code'.toJson → code = code') := by
  have hread := Bytecode.ofJson?_of_within h
  have hread' := Bytecode.ofJson?_of_within h'
  refine ⟨hread, fun hjson => ?_⟩
  rw [← hjson, hread] at hread'
  exact Option.some.inj hread'

namespace Traversal

/-- A traversal with one nested in it, and with an entity that has the names of nested bytecode. -/
def disguised (count : Value Unit) : Traversal Unit :=
  let nested : Traversal Unit := ⟨"__", ⟨[⟨0, .out ["knows"]⟩]⟩, default, 0, ∅⟩
  let body : Entity Unit := ⟨"Body", [("step", .text "out")]⟩
  let code : Entity Unit := ⟨"Code", [("@value", .entity body), ("@type", .text "g:Bytecode")]⟩
  ⟨"g", ⟨[⟨3, .lacking nested⟩, ⟨2, .inject [.entity code]⟩, ⟨1, ⟨"limit", [count]⟩⟩]⟩,
    default, 0, ∅⟩

/-- Integers of two widths have the same JSON and the same bytecode, where the entity is a value. -/
theorem bytecode_recovered_disguised :
    ∃ code code' : Bytecode,
      (disguised (.int 1)).bytecode = .ok code ∧ (disguised (.long 1)).bytecode = .ok code' ∧
      code.toJson = code'.toJson ∧ Bytecode.ofJson? code.toJson = some code ∧ code = code' := by
  let body : Json := .object [("step", .text "out")]
  let entity : Json := .object [("@type", .text "g:Bytecode"), ("@value", body)]
  let code : Bytecode := ⟨[], [⟨"limit", [.value (.int 1)]⟩, ⟨"inject", [.value entity]⟩,
    ⟨"not", [.traversal ⟨[], [⟨"out", [.value (.text "knows")]⟩]⟩]⟩]⟩
  have hint : (disguised (.int 1)).bytecode = .ok code := rfl
  have hlong : (disguised (.long 1)).bytecode = .ok code := rfl
  obtain ⟨hread, hsame⟩ := bytecode_recovered hint hlong
  exact ⟨code, code, hint, hlong, rfl, hread, hsame rfl⟩

end Traversal

end Gremlin
