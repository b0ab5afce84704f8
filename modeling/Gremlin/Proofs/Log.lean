import Gremlin.Proofs.Bounds
import Gremlin.Proofs.Parameters

/-!
# Logs

The log of a compilation lists what is written, entry by entry: text, or a value that is bound at
that moment, with the name that is written for it. What has been written before a failure stays,
so the log of a program that catches a failure keeps it as well. An output grows by the entries
of a log and by nothing else; so what each entry keeps holds of every output in the end.

* `Plan.leads_log`: carrying out a plan writes the entries of its log;
* `Output.Leads.extends`: whatever is written, the text and the parameters so far stay;
* `Output.Leads.accounts`: the output holds exactly the text, the keys and the names that the log
  tells of;
* `Dialect.parameters_match_text`: what that means for scripts, whatever the rules are.
-/

namespace Gremlin

variable {ρ : Type}

/-! ## Entries -/

/-- Something that is written: text, or a value that is bound, under a name. -/
inductive Entry (ρ : Type) where
  | text (s : String)
  | bound (v : Value ρ) (name : String)

namespace Entry

/-- What stands in the text for an entry. -/
def shown : Entry ρ → String
  | text s => s
  | bound _ name => name

/-- The key that an entry binds, if it binds one. -/
def key? : Entry ρ → Option Parameters.Key
  | text _ => none
  | bound v _ => some (Parameters.keyOf v)

/-- The text of a log. -/
def textOf (log : List (Entry ρ)) : String := String.join (log.map shown)

/-- The keys that are bound in a log, each once and in the order in which they are bound first. -/
def keysOf (log : List (Entry ρ)) : List Parameters.Key := (log.filterMap key?).eraseDups

@[simp] theorem textOf_append (log more : List (Entry ρ)) :
    textOf (log ++ more) = textOf log ++ textOf more := by
  simp [textOf]

@[simp] theorem textOf_singleton (entry : Entry ρ) : textOf [entry] = entry.shown := by
  simp [textOf]

@[simp] theorem keysOf_append_text (log : List (Entry ρ)) (s : String) :
    keysOf (log ++ [.text s]) = keysOf log := by
  have hsplit : (log ++ [Entry.text s]).filterMap key? = log.filterMap key? := by
    rw [List.filterMap_append]
    exact List.append_nil _
  unfold keysOf
  rw [hsplit]

/-- Only a key that has not been bound before is new. -/
theorem keysOf_append_bound (log : List (Entry ρ)) (v : Value ρ) (name : String) :
    keysOf (log ++ [.bound v name]) =
      if Parameters.keyOf v ∈ keysOf log then keysOf log
      else keysOf log ++ [Parameters.keyOf v] := by
  have hsplit : (log ++ [Entry.bound v name]).filterMap key? =
      log.filterMap key? ++ [Parameters.keyOf v] := by
    rw [List.filterMap_append]
    rfl
  unfold keysOf
  rw [hsplit]
  generalize log.filterMap key? = keys
  rw [List.eraseDups_append]
  by_cases hmem : Parameters.keyOf v ∈ keys
  · simp [List.removeAll, hmem]
  · simp [List.removeAll, hmem, List.eraseDups_cons]

theorem mem_keysOf {log : List (Entry ρ)} {key : Parameters.Key} :
    key ∈ keysOf log ↔ ∃ v name, .bound v name ∈ log ∧ Parameters.keyOf v = key := by
  unfold keysOf
  rw [List.mem_eraseDups, List.mem_filterMap]
  constructor
  · rintro ⟨entry, hentry, hkey⟩
    cases entry with
    | text s => contradiction
    | bound v name =>
      injection hkey with hkey
      exact ⟨v, name, hentry, hkey⟩
  · rintro ⟨v, name, hentry, hkey⟩
    exact ⟨.bound v name, hentry, congrArg some hkey⟩

/-- What stands in the text for an entry stands in the text of the log. -/
theorem exists_textOf_eq {log : List (Entry ρ)} {entry : Entry ρ} (h : entry ∈ log) :
    ∃ before after, textOf log = before ++ entry.shown ++ after := by
  obtain ⟨first, last, rfl⟩ := List.append_of_mem h
  refine ⟨textOf first, textOf last, ?_⟩
  simp [textOf, String.append_assoc]

end Entry

/-! ## Writing a log -/

/-- Writing the entries of a log leads from one output to another. A name is the one that binding
the value gives out at that moment. -/
inductive Output.Leads (o : Output) : List (Entry ρ) → Output → Prop where
  | nil : Leads o [] o
  | text {log : List (Entry ρ)} {o' : Output} (s : String) (h : Leads o log o') :
      Leads o (log ++ [.text s]) (o'.push s)
  | bound {log : List (Entry ρ)} {o' : Output} (v : Value ρ) (h : Leads o log o') :
      Leads o (log ++ [.bound v (o'.parameters.bind v).1]) (o'.bind v)

theorem Output.Leads.trans {o o' o'' : Output} {log more : List (Entry ρ)} (h : o.Leads log o')
    (h' : o'.Leads more o'') : o.Leads (log ++ more) o'' := by
  induction h' with
  | nil =>
    rw [List.append_nil]
    exact h
  | text s _ ih =>
    rw [← List.append_assoc]
    exact .text s ih
  | bound v _ ih =>
    rw [← List.append_assoc]
    exact .bound v ih

namespace Plan

/-- What is written when a plan is carried out, in order. -/
def log (mode : Mode) : Plan ρ → Output → List (Entry ρ)
  | push s, _ => [.text s]
  | bind v, o => [.bound v (o.parameters.bind v).1]
  | literal v, o =>
    if mode.inlined then [.text (Output.inlineText v)] else [.bound v (o.parameters.bind v).1]
  | andThen first second, o =>
    first.log mode o ++
      match first.run mode o with
      | (.ok (), o) => second.log mode o
      | (.error _, _) => []
  | orElse body rescue, o =>
    body.log mode o ++
      match body.run mode o with
      | (.ok (), _) => []
      | (.error _, o) => rescue.log mode o
  | choose holds yes no, o => if holds o then yes.log mode o else no.log mode o
  | enter _ work, o => work.log mode o
  | _, _ => []

/-- Carrying out a plan writes the entries of its log, whether it fails or not. -/
theorem leads_log (mode : Mode) (p : Plan ρ) (o : Output) :
    o.Leads (p.log mode o) (p.run mode o).2 := by
  induction p generalizing o with
  | done => exact .nil
  | fail e => exact .nil
  | push s => exact .text s .nil
  | bind v => exact .bound v .nil
  | literal v =>
    simp only [log, run, Pass.write, Output.literal]
    by_cases hmode : mode.inlined = true
    · rw [if_pos hmode, if_pos hmode]
      exact .text _ .nil
    · rw [if_neg hmode, if_neg hmode]
      exact .bound v .nil
  | andThen first second ihfirst ihsecond =>
    have hfirst := ihfirst o
    simp only [log, run, Pass.andThen]
    rcases hrun : first.run mode o with ⟨_ | _, o'⟩
    · rw [hrun] at hfirst
      simpa using hfirst
    · rw [hrun] at hfirst
      exact hfirst.trans (ihsecond o')
  | orElse body rescue ihbody ihrescue =>
    -- the rescue goes on from what the body has written
    have hbody := ihbody o
    simp only [log, run, Pass.orElse]
    rcases hrun : body.run mode o with ⟨_ | _, o'⟩
    · rw [hrun] at hbody
      exact hbody.trans (ihrescue o')
    · rw [hrun] at hbody
      simpa using hbody
  | choose holds yes no ihyes ihno =>
    simp only [log, run]
    by_cases hholds : holds o = true
    · rw [if_pos hholds, if_pos hholds]
      exact ihyes o
    · rw [if_neg hholds, if_neg hholds]
      exact ihno o
  | enter _ work ih => exact ih o

end Plan

/-! ## What stays -/

/-- The second output is the first with more text and more parameters. -/
structure Output.Extends (o o' : Output) : Prop where
  text : ∃ more, o'.text = o.text ++ more
  parameters : o.parameters.Within o'.parameters

/-- Whatever is written, the text and the parameters so far stay. -/
theorem Output.Leads.extends {o o' : Output} {log : List (Entry ρ)} (h : o.Leads log o') :
    o.Extends o' := by
  induction h with
  | nil => exact ⟨⟨"", by simp⟩, Parameters.Within.refl _⟩
  | text s _ ih =>
    obtain ⟨more, htext⟩ := ih.text
    refine ⟨⟨more ++ s, ?_⟩, ih.parameters⟩
    simp [Output.push, htext, String.append_assoc]
  | @bound _ o' v _ ih =>
    obtain ⟨more, htext⟩ := ih.text
    refine ⟨⟨more ++ (o'.parameters.bind v).1, ?_⟩, ?_⟩
    · simp [Output.bind, htext, String.append_assoc]
    · exact ih.parameters.trans (Parameters.within_bind _ v)

/-! ## What an output holds -/

/-- The output holds what the log tells of: its text, its keys, and every name that it has given
out. -/
structure Output.Accounts (log : List (Entry ρ)) (o : Output) : Prop where
  text : o.text = Entry.textOf log
  keys : o.parameters.bound.map (·.1) = Entry.keysOf log
  names : ∀ v name, .bound v name ∈ log → o.parameters.Holds v ∧ o.parameters.name v = name
  wellFormed : o.parameters.WellFormed

namespace Output.Accounts

variable {log : List (Entry ρ)} {o : Output}

theorem empty : Accounts ([] : List (Entry ρ)) {} where
  text := rfl
  keys := rfl
  names v name h := by simp at h
  wellFormed := Parameters.wellFormed_empty

theorem push (h : Accounts log o) (s : String) : Accounts (log ++ [.text s]) (o.push s) where
  text := by simp [Output.push, h.text, Entry.shown]
  keys := by simpa [Output.push] using h.keys
  names v name hmem := h.names v name (by simpa using hmem)
  wellFormed := h.wellFormed

theorem bind (h : Accounts log o) (v : Value ρ) :
    Accounts (log ++ [.bound v (o.parameters.bind v).1]) (o.bind v) where
  text := by simp [Output.bind, h.text, Entry.shown]
  keys := by
    rw [Entry.keysOf_append_bound, ← h.keys]
    exact Parameters.keys_bind o.parameters v
  names w name hmem := by
    have hwithin := Parameters.within_bind o.parameters v
    rcases List.mem_append.mp hmem with hold | hnew
    · -- a name that has been given out before stays what it is
      obtain ⟨hholds, hname⟩ := h.names w name hold
      exact ⟨hholds.of_within hwithin, (Parameters.name_of_within hwithin hholds).trans hname⟩
    · have heq : Entry.bound w name = .bound v (o.parameters.bind v).1 := by simpa using hnew
      injection heq with hvalue hname
      rw [hvalue, hname, Parameters.bind_fst]
      exact ⟨Parameters.holds_bind _ v, Parameters.name_bind _ v⟩
  wellFormed := h.wellFormed.bind v

end Output.Accounts

/-- What a log leads to from nothing holds what the log tells of. -/
theorem Output.Leads.accounts {log : List (Entry ρ)} {o : Output}
    (h : Output.Leads {} log o) : Accounts log o := by
  induction h with
  | nil => exact .empty
  | text s _ ih => exact ih.push s
  | bound v _ ih => exact ih.bind v

/-! ### Numbers of names -/

namespace Output.Accounts

variable {log : List (Entry ρ)} {o : Output} (h : Accounts log o)
include h

/-- A name has the number of its key among the keys in the order of their first bind. -/
theorem exists_number {v : Value ρ} {name : String} (hbound : .bound v name ∈ log) :
    ∃ n, (Entry.keysOf log)[n]? = some (Parameters.keyOf v) ∧ name = Parameters.nameOf n := by
  obtain ⟨⟨n, hindex⟩, hname⟩ := h.names v name hbound
  obtain ⟨json, hentry⟩ := Parameters.getElem?_of_indexOf? hindex
  refine ⟨n, ?_, ?_⟩
  · rw [← h.keys, List.getElem?_map, hentry]
    rfl
  · rw [← hname, Parameters.name, hindex, Option.getD_some]

theorem rows_names :
    o.parameters.rows.map (·.1) =
      (List.range (Entry.keysOf log).length).map Parameters.nameOf := by
  rw [← h.keys, List.length_map]
  apply List.ext_getElem?
  intro n
  by_cases hn : n < o.parameters.bound.length
  · simp [Parameters.rows, hn]
  · simp [Parameters.rows, Nat.not_lt.mp hn]

/-- The name of every parameter stands in the text. -/
theorem exists_text_eq {row : String × Json} (hrow : row ∈ o.parameters.rows) :
    ∃ before after, o.text = before ++ row.1 ++ after := by
  have hnames : row.1 ∈ (List.range (Entry.keysOf log).length).map Parameters.nameOf := by
    rw [← h.rows_names]
    exact List.mem_map_of_mem hrow
  obtain ⟨n, hn, hname⟩ := List.mem_map.mp hnames
  rw [List.mem_range] at hn
  -- the key with this number was bound somewhere, under a name with the number of its key
  obtain ⟨v, name, hbound, hkey⟩ := Entry.mem_keysOf.mp (List.getElem_mem hn)
  obtain ⟨m, hm, hnumber⟩ := h.exists_number hbound
  have hnodup : (Entry.keysOf log).Nodup := by
    rw [← h.keys]
    exact h.wellFormed.nodup
  have heq : n = m := by
    apply (List.getElem?_inj hn hnodup).mp
    rw [hm, hkey, List.getElem?_eq_getElem hn]
  rw [h.text, ← hname, heq, ← hnumber]
  exact Entry.exists_textOf_eq hbound

end Output.Accounts

/-! ## Whole compilations -/

namespace Dialect

/-- What is written when a traversal is compiled, in order. -/
def log (d : Dialect ρ) (t : Traversal ρ) (inlined : Bool) : List (Entry ρ) :=
  (d.plan t inlined).log ⟨inlined, t.environment.options⟩ {}

/-- A script is what the log of its compilation leads to. -/
theorem leads_of_compile {d : Dialect ρ} {t : Traversal ρ} {inlined : Bool} {script : Script}
    (h : d.compile t inlined = .ok script) :
    ∃ o, Output.Leads {} (d.log t inlined) o ∧ script = o.script := by
  have hleads := (d.plan t inlined).leads_log ⟨inlined, t.environment.options⟩ {}
  rw [compile_eq_run_plan, Pass.script] at h
  split at h
  · rename_i o hrun
    injection h with h
    rw [hrun] at hleads
    exact ⟨o, hleads, h.symm⟩
  · contradiction

/-- Text and parameters of a script match, whatever programs the rules are. The log of the
compilation leads from nothing to the script: the text shows its entries one after another, and
the parameters are named `P0`, `P1`, … up to the number of different keys that it binds. Every one
of these names stands in the text. A value that is bound anywhere, also where a failure was caught
later, is written under the name with the number of its key in the order of first binds, and the
parameters hold its JSON form under this name. Two values are written under one name exactly when
they are written alike. -/
theorem parameters_match_text {d : Dialect ρ} {t : Traversal ρ} {inlined : Bool} {script : Script}
    (h : d.compile t inlined = .ok script) :
    (∃ o, Output.Leads {} (d.log t inlined) o ∧ script = o.script) ∧
    script.text = Entry.textOf (d.log t inlined) ∧
    script.parameters.map (·.1) =
      (List.range (Entry.keysOf (d.log t inlined)).length).map Parameters.nameOf ∧
    (∀ row ∈ script.parameters, ∃ before after, script.text = before ++ row.1 ++ after) ∧
    (∀ v name, .bound v name ∈ d.log t inlined →
      (∃ n, (Entry.keysOf (d.log t inlined))[n]? = some (Parameters.keyOf v) ∧
        name = Parameters.nameOf n) ∧
      script.parameters.lookup name = some v.toJson) ∧
    ∀ v name w name', .bound v name ∈ d.log t inlined → .bound w name' ∈ d.log t inlined →
      (name = name' ↔ v.Alike w) := by
  obtain ⟨o, hleads, rfl⟩ := leads_of_compile h
  have haccounts := hleads.accounts
  refine ⟨⟨o, hleads, rfl⟩, haccounts.text, haccounts.rows_names, ?_, ?_, ?_⟩
  · intro row hrow
    exact haccounts.exists_text_eq hrow
  · intro v name hbound
    obtain ⟨hholds, hname⟩ := haccounts.names v name hbound
    refine ⟨haccounts.exists_number hbound, ?_⟩
    rw [← hname]
    exact Parameters.lookup_name haccounts.wellFormed hholds
  · intro v name w name' hv hw
    obtain ⟨hholds, hname⟩ := haccounts.names v name hv
    obtain ⟨hholds', hname'⟩ := haccounts.names w name' hw
    rw [← hname, ← hname']
    exact Parameters.name_eq_iff hholds hholds'

/-- A dialect that binds a value for the step `V`, fails and is caught, binds another one of the
same text and the first one again. -/
def rescuing : Dialect Unit :=
  ⟨[(.step "V", .any
    [.attempt [.bind (.value (.key "k")), .rangeError "x" 1 1] [.push "!"],
      .bind (.value (.token "k")), .push " ", .bind (.value (.key "k"))])]⟩

/-- What was bound before the failure keeps its name and its number, and is bound again under
them. -/
theorem parameters_match_text_rescuing :
    ∃ script, rescuing.compile .vertices false = .ok script ∧
      script = ⟨"g.P0!P1 P0", [("P0", (Value.key "k" : Value Unit).toJson),
        ("P1", (Value.token "k" : Value Unit).toJson)]⟩ ∧
      (rescuing.log .vertices false).map Entry.shown = ["g", ".", "P0", "!", "P1", " ", "P0"] ∧
      script.text = Entry.textOf (rescuing.log .vertices false) := by
  have hcompile : rescuing.compile .vertices false =
      .ok ⟨"g.P0!P1 P0", [("P0", (Value.key "k" : Value Unit).toJson),
        ("P1", (Value.token "k" : Value Unit).toJson)]⟩ := by decide +kernel
  obtain ⟨_, htext, _⟩ := parameters_match_text hcompile
  exact ⟨_, hcompile, rfl, by decide +kernel, htext⟩

end Dialect

end Gremlin
