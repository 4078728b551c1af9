import Mpubsub.Component.Codegen
import Mathlib.Logic.Relation

/-!
# The names in the generated code (`proto_emitter.py`, `__init__.py`)

Each message brings a struct, a trigger class and an action class, named after the PascalCase of
its id. Leaving a separator out, or writing a capital, may leave the PascalCase as it is
(`Respelled`); ids have the same one exactly when such edits lead from one to the other
(`pascalCase_eq_iff`).
-/

namespace Mpubsub.Component

open Mpubsub.Lib Mpubsub.Proto

section

variable (u : Unicode)

/-- `_publish_action_class`. -/
def publishActionClass (msgId : String) : String := "Publish" ++ pascalCase u msgId ++ "Action"

/-- The members of the struct that `emit_struct` declares, as far as their names are not its
own. -/
def structMembers (msg : Message) : List String :=
  ["SCHEMA_ID", "SCHEMA_NAME"] ++ msg.fields.map Field.name ++ ["encode_to"]

/-- The templatable values of the action class. -/
def actionMembers (msg : Message) : List String :=
  ["topic", "retransmit_count"] ++ msg.fields.map Field.name

/-! ## PascalCase, character by character -/

def isSeparator (c : Char) : Bool := c == '_' || c == '-'

/-- The PascalCase of some characters; `start` tells whether a part starts. -/
def pascalFrom : Bool → List Char → List Char
  | _, [] => []
  | start, c :: cs =>
    if isSeparator c then pascalFrom true cs
    else (if start then (u.upper c).toList else [c]) ++ pascalFrom false cs

/-- What `str.upper` of a character is, as the PascalCase relies on it. -/
structure Unicode.Capitals : Prop where
  ne_empty : ∀ c, u.upper c ≠ ""
  plain : ∀ c, isSeparator c = false → ∀ d ∈ (u.upper c).toList, isSeparator d = false
  upper_upper : ∀ c, capitalised u (u.upper c).toList = u.upper c

/-- One edit of an id: a separator that is left out at the start, at the end or beside another
one, a capital at the start, or a capital in place of a separator and the character behind it. -/
inductive Respelled : List Char → List Char → Prop
  | lead {sep : Char} (h : isSeparator sep = true) (s : List Char) : Respelled (sep :: s) s
  | trail {sep : Char} (h : isSeparator sep = true) (s : List Char) : Respelled (s ++ [sep]) s
  | double {sep sep' : Char} (h : isSeparator sep = true) (h' : isSeparator sep' = true)
      (s t : List Char) : Respelled (s ++ sep :: sep' :: t) (s ++ sep :: t)
  | capital {c : Char} (h : isSeparator c = false) (s : List Char) :
      Respelled (c :: s) ((u.upper c).toList ++ s)
  | joined {sep c : Char} (h : isSeparator sep = true) (hc : isSeparator c = false)
      (s t : List Char) : Respelled (s ++ sep :: c :: t) (s ++ (u.upper c).toList ++ t)

/-- Edits lead from one id to the other. -/
def Alike (a b : String) : Prop := Relation.EqvGen (Respelled u) a.toList b.toList

end

variable {u : Unicode}

theorem toList_pascalCase (name : String) :
    (pascalCase u name).toList = pascalFrom u true name.toList := by
  have hparts (cs : List Char) : ∃ part parts, cs.splitOnP isSeparator = part :: parts ∧
      ((part :: parts).flatMap fun p => (capitalised u p).toList) = pascalFrom u true cs ∧
      part ++ (parts.flatMap fun p => (capitalised u p).toList) = pascalFrom u false cs := by
    induction cs with
    | nil => exact ⟨[], [], rfl, rfl, rfl⟩
    | cons c cs ih =>
      obtain ⟨part, parts, hsplit, hstart, hinside⟩ := ih
      rw [List.splitOnP_cons_eq_if_modifyHead, hsplit]
      by_cases hsep : isSeparator c = true
      · refine ⟨[], part :: parts, by rw [if_pos hsep], ?_, ?_⟩
        · rw [pascalFrom, if_pos hsep, ← hstart]
          rfl
        · rw [pascalFrom, if_pos hsep, ← hstart]
          rfl
      · refine ⟨c :: part, parts, by rw [if_neg hsep]; rfl, ?_, ?_⟩
        · rw [pascalFrom, if_neg hsep, ← hinside]
          simp [capitalised]
        · rw [pascalFrom, if_neg hsep, ← hinside]
          rfl
  obtain ⟨part, parts, hsplit, hstart, -⟩ := hparts name.toList
  rw [← hstart, ← hsplit, pascalCase, String.toList_join, List.flatMap_map]
  rfl

/-! ## What an edit does -/

theorem pascalFrom_sep {start : Bool} {c : Char} (h : isSeparator c = true) (cs : List Char) :
    pascalFrom u start (c :: cs) = pascalFrom u true cs := if_pos h

theorem pascalFrom_start {c : Char} (h : isSeparator c = false) (cs : List Char) :
    pascalFrom u true (c :: cs) = (u.upper c).toList ++ pascalFrom u false cs := by
  rw [pascalFrom, h]
  rfl

theorem pascalFrom_inside {c : Char} (h : isSeparator c = false) (cs : List Char) :
    pascalFrom u false (c :: cs) = c :: pascalFrom u false cs := by
  rw [pascalFrom, h]
  rfl

/-- Inside a part, all characters but separators are kept. -/
theorem pascalFrom_plain_append {part : List Char} (h : ∀ c ∈ part, isSeparator c = false)
    (cs : List Char) : pascalFrom u false (part ++ cs) = part ++ pascalFrom u false cs := by
  induction part with
  | nil => rfl
  | cons c part ih =>
    rw [List.forall_mem_cons] at h
    rw [List.cons_append, pascalFrom_inside h.1, ih h.2, List.cons_append]

/-- What is done behind does not depend on what stands before. -/
theorem pascalFrom_append_congr {t t' : List Char}
    (h : ∀ start, pascalFrom u start t = pascalFrom u start t') (s : List Char) (start : Bool) :
    pascalFrom u start (s ++ t) = pascalFrom u start (s ++ t') := by
  induction s generalizing start with
  | nil => exact h start
  | cons c s ih => simp only [List.cons_append, pascalFrom, ih]

/-- A capital stands for itself, wherever it is. -/
theorem pascalFrom_upper_append (hu : u.Capitals) {c : Char} (hc : isSeparator c = false)
    (start : Bool) (cs : List Char) :
    pascalFrom u start ((u.upper c).toList ++ cs) =
      (u.upper c).toList ++ pascalFrom u false cs := by
  cases start with
  | false => exact pascalFrom_plain_append (hu.plain c hc) cs
  | true =>
    have hplain := hu.plain c hc
    have hupper := congrArg String.toList (hu.upper_upper c)
    cases hd : (u.upper c).toList with
    | nil => exact absurd (String.toList_eq_nil_iff.mp hd) (hu.ne_empty c)
    | cons d ds =>
      rw [hd] at hplain hupper
      rw [capitalised, String.toList_append, String.toList_ofList] at hupper
      rw [List.forall_mem_cons] at hplain
      rw [List.cons_append, pascalFrom_start hplain.1, pascalFrom_plain_append hplain.2,
        ← List.append_assoc, hupper]

theorem pascalFrom_of_respelled (hu : u.Capitals) {s t : List Char} (h : Respelled u s t) :
    pascalFrom u true s = pascalFrom u true t := by
  cases h with
  | lead h s => exact pascalFrom_sep h _
  | @trail sep h s =>
    have hend (start : Bool) : pascalFrom u start [sep] = pascalFrom u start [] :=
      (pascalFrom_sep h []).trans rfl
    rw [pascalFrom_append_congr hend, List.append_nil]
  | double h h' s t =>
    refine pascalFrom_append_congr (fun start => ?_) s true
    rw [pascalFrom_sep h, pascalFrom_sep h', pascalFrom_sep h]
  | capital h s => rw [pascalFrom_start h, pascalFrom_upper_append hu h]
  | joined h hc s t =>
    rw [List.append_assoc]
    refine pascalFrom_append_congr (fun start => ?_) s true
    rw [pascalFrom_sep h, pascalFrom_start hc, pascalFrom_upper_append hu hc]

theorem pascalFrom_of_eqvGen (hu : u.Capitals) {s t : List Char}
    (h : Relation.EqvGen (Respelled u) s t) : pascalFrom u true s = pascalFrom u true t := by
  induction h with
  | rel s t h => exact pascalFrom_of_respelled hu h
  | refl s => rfl
  | symm s t _ ih => exact ih.symm
  | trans s t r _ _ ih ih' => exact ih.trans ih'

/-- Edits lead to the PascalCase. -/
theorem eqvGen_pascalFrom (s : List Char) :
    Relation.EqvGen (Respelled u) s (pascalFrom u true s) := by
  -- Behind what has been done already, inside a part or behind a separator.
  have hrest (s : List Char) :
      (∀ a, Relation.EqvGen (Respelled u) (a ++ s) (a ++ pascalFrom u false s)) ∧
      ∀ a sep, isSeparator sep = true →
        Relation.EqvGen (Respelled u) (a ++ sep :: s) (a ++ pascalFrom u true s) := by
    induction s with
    | nil =>
      refine ⟨fun a => .refl _, fun a sep hsep => ?_⟩
      rw [pascalFrom, List.append_nil]
      exact .rel _ _ (.trail hsep a)
    | cons c s ih =>
      obtain ⟨hinside, hbehind⟩ := ih
      by_cases hc : isSeparator c = true
      · simp only [pascalFrom_sep hc]
        refine ⟨fun a => hbehind a c hc, fun a sep hsep => ?_⟩
        exact .trans _ _ _ (.rel _ _ (.double hsep hc a s)) (hbehind a sep hsep)
      · have hc : isSeparator c = false := Bool.not_eq_true _ ▸ hc
        constructor
        · intro a
          have hnext := hinside (a ++ [c])
          rw [pascalFrom_inside hc]
          simpa using hnext
        · intro a sep hsep
          have hnext := hinside (a ++ (u.upper c).toList)
          rw [List.append_assoc a _ (pascalFrom u false s), ← pascalFrom_start hc] at hnext
          exact .trans _ _ _ (.rel _ _ (.joined hsep hc a s)) hnext
  induction s with
  | nil => exact .refl _
  | cons c s ih =>
    by_cases hc : isSeparator c = true
    · rw [pascalFrom_sep hc]
      exact .trans _ _ _ (.rel _ _ (.lead hc s)) ih
    · have hc : isSeparator c = false := Bool.not_eq_true _ ▸ hc
      rw [pascalFrom_start hc]
      exact .trans _ _ _ (.rel _ _ (.capital hc s)) ((hrest s).1 _)

/-- Two ids have the same PascalCase if and only if edits lead from one to the other. -/
theorem pascalCase_eq_iff (hu : u.Capitals) {a b : String} :
    pascalCase u a = pascalCase u b ↔ Alike u a b := by
  rw [← String.toList_inj, toList_pascalCase, toList_pascalCase]
  constructor
  · intro h
    exact .trans _ _ _ (eqvGen_pascalFrom a.toList) (h ▸ .symm _ _ (eqvGen_pascalFrom b.toList))
  · intro h
    exact pascalFrom_of_eqvGen hu h

/-- An id has a PascalCase unless it consists of separators. -/
theorem pascalCase_ne_empty_iff (hu : u.Capitals) {name : String} :
    pascalCase u name ≠ "" ↔ ∃ c ∈ name.toList, isSeparator c = false := by
  have hempty (cs : List Char) (start : Bool) :
      pascalFrom u start cs ≠ [] ↔ ∃ c ∈ cs, isSeparator c = false := by
    induction cs generalizing start with
    | nil => simp [pascalFrom]
    | cons c cs ih =>
      by_cases hc : isSeparator c = true
      · rw [pascalFrom_sep hc, ih true]
        simp [hc]
      · have hc : isSeparator c = false := Bool.not_eq_true _ ▸ hc
        cases start with
        | true =>
          rw [pascalFrom_start hc]
          simp [hc, hu.ne_empty c]
        | false =>
          rw [pascalFrom_inside hc]
          simp [hc]
  rw [← hempty name.toList true, ← toList_pascalCase, ne_eq, ne_eq, String.toList_eq_nil_iff]

end Mpubsub.Component
