import Mpubsub.Component.Names
import Mpubsub.Theorems.CodeGeneration

/-!
# Names in the generated code

`_messages_validator` compares the ids, and `validate` the fields of each message. The classes
are named after the PascalCase of the ids, which leaves the separators out, and have members
beside the fields.
-/

namespace Mpubsub.Theorems

open Mpubsub.Lib Mpubsub.Proto Mpubsub.Component

/-- The generated classes have names, no two of them the same, and neither have the members of
one of them. -/
structure NamesDistinct (u : Unicode) (msgs : List Message) : Prop where
  named : ∀ msg ∈ msgs, pascalCase u msg.id ≠ "" ∧ triggerClassOf (pascalCase u msg.id) ≠ "" ∧
    publishActionClass u msg.id ≠ ""
  structs : (msgs.map fun msg => pascalCase u msg.id).Nodup
  classes : (msgs.map (fun msg => triggerClassOf (pascalCase u msg.id)) ++
    msgs.map fun msg => publishActionClass u msg.id).Nodup
  structMembers : ∀ msg ∈ msgs, (structMembers msg).Nodup
  actionMembers : ∀ msg ∈ msgs, (actionMembers msg).Nodup

/-- Every id has more than separators, no edits lead from one id to another, and no field is named
as one of the other members. -/
structure NamesApart (u : Unicode) (msgs : List Message) : Prop where
  ids : ∀ msg ∈ msgs, ∃ c ∈ msg.id.toList, isSeparator c = false
  apart : msgs.Pairwise fun msg msg' => ¬Alike u msg.id msg'.id
  fields : ∀ msg ∈ msgs, ∀ f ∈ msg.fields,
    f.name ∉ ["topic", "retransmit_count", "SCHEMA_ID", "SCHEMA_NAME", "encode_to"]

variable {u : Unicode} {raw : List RawMessage} {msgs : List Message}

theorem validate_of_messagesValidator (h : messagesValidator u raw = .ok msgs) :
    ∀ msg ∈ msgs, validate msg = .ok () := by
  unfold messagesValidator at h
  obtain ⟨msgs, hmsgs, h⟩ := bind_eq_ok.mp h
  obtain ⟨⟨⟩, -, h⟩ := bind_eq_ok.mp h
  cases pure_eq_ok.mp h
  intro msg hmsg
  obtain ⟨rawMessage, -, hrel⟩ := exists_of_mem_mapM hmsgs msg hmsg
  exact validate_of_messageValidator hrel

/-- The structs are distinct as far as their ids are apart. -/
theorem structs_nodup_iff (hu : u.Capitals) :
    (msgs.map fun msg => pascalCase u msg.id).Nodup ↔
      msgs.Pairwise fun msg msg' => ¬Alike u msg.id msg'.id := by
  rw [List.Nodup, List.pairwise_map]
  simp only [ne_eq, pascalCase_eq_iff hu]

theorem triggerClassOf_injective : Function.Injective triggerClassOf := by
  intro a b h
  have hlist := congrArg String.toList h
  simp only [triggerClassOf, String.toList_append] at hlist
  exact String.toList_inj.mp (List.append_cancel_left (List.append_cancel_right hlist))

theorem pascalCase_of_publishActionClass {a b : String}
    (h : publishActionClass u a = publishActionClass u b) : pascalCase u a = pascalCase u b := by
  have hlist := congrArg String.toList h
  simp only [publishActionClass, String.toList_append] at hlist
  exact String.toList_inj.mp (List.append_cancel_left (List.append_cancel_right hlist))

/-- A trigger class starts with another letter than an action class. -/
theorem triggerClassOf_ne_publishActionClass (a b : String) :
    triggerClassOf a ≠ publishActionClass u b := by
  intro h
  have hlist := congrArg String.toList h
  simp [triggerClassOf, publishActionClass] at hlist

/-- Distinct structs have distinct classes. -/
theorem classes_nodup (h : (msgs.map fun msg => pascalCase u msg.id).Nodup) :
    (msgs.map (fun msg => triggerClassOf (pascalCase u msg.id)) ++
      msgs.map fun msg => publishActionClass u msg.id).Nodup := by
  rw [List.Nodup, List.pairwise_map] at h
  rw [List.nodup_append]
  refine ⟨?_, ?_, ?_⟩
  · exact List.pairwise_map.mpr (h.imp fun hne heq => hne (triggerClassOf_injective heq))
  · exact List.pairwise_map.mpr (h.imp fun hne heq => hne (pascalCase_of_publishActionClass heq))
  · intro a ha b hb
    obtain ⟨msg, -, rfl⟩ := List.mem_map.mp ha
    obtain ⟨msg', -, rfl⟩ := List.mem_map.mp hb
    exact triggerClassOf_ne_publishActionClass _ _

/-- The members are distinct unless a field has the name of one of the others. -/
theorem members_nodup_iff {msg : Message} (h : validate msg = .ok ()) :
    (structMembers msg).Nodup ∧ (actionMembers msg).Nodup ↔ ∀ f ∈ msg.fields,
      f.name ∉ ["topic", "retransmit_count", "SCHEMA_ID", "SCHEMA_NAME", "encode_to"] := by
  have hnames := (validate_iff.mp h).names
  have hmem (name : String) :
      name ∉ msg.fields.map Field.name ↔ ∀ f ∈ msg.fields, f.name ≠ name := by
    simp [List.mem_map]
  have hstruct : (structMembers msg).Nodup ↔ "encode_to" ∉ msg.fields.map Field.name ∧
      "SCHEMA_ID" ∉ msg.fields.map Field.name ∧ "SCHEMA_NAME" ∉ msg.fields.map Field.name := by
    rw [structMembers, (List.perm_append_singleton _ _).nodup_iff]
    simp [hnames, -List.mem_map]
  have haction : (actionMembers msg).Nodup ↔ "topic" ∉ msg.fields.map Field.name ∧
      "retransmit_count" ∉ msg.fields.map Field.name := by
    simp [actionMembers, hnames, -List.mem_map]
  rw [hstruct, haction]
  simp only [hmem, ← forall_and]
  refine forall₂_congr fun f _ => ?_
  simp only [List.mem_cons, List.not_mem_nil, or_false, not_or, ne_eq]
  tauto

theorem val_toUpper (c : Char) : c.toUpper.val =
    if 'a'.val ≤ c.val ∧ c.val ≤ 'z'.val then c.val + ('A'.val - 'a'.val) else c.val :=
  apply_dite Char.val _ _ _

theorem isUpper_iff {c : Char} : c.isUpper = true ↔ 65 ≤ c.val.toNat ∧ c.val.toNat ≤ 90 :=
  decide_eq_true_iff.trans (and_congr UInt32.le_iff_toNat_le UInt32.le_iff_toNat_le)

/-- The capital of an ASCII letter is a capital; any other character is kept. -/
theorem toUpper_cases (c : Char) : c.toUpper = c ∨ c.toUpper.isUpper = true := by
  have hval := val_toUpper c
  split at hval
  · rename_i hlower
    right
    have hlow : 97 ≤ c.val.toNat := UInt32.le_iff_toNat_le.mp hlower.1
    have hhigh : c.val.toNat ≤ 122 := UInt32.le_iff_toNat_le.mp hlower.2
    have hshift : c.toUpper.val.toNat = c.val.toNat - 32 := by
      rw [hval, UInt32.toNat_add, show ('A'.val - 'a'.val).toNat = 2 ^ 32 - 32 from rfl]
      omega
    rw [isUpper_iff, hshift]
    omega
  · exact .inl (Char.ext hval)

/-- A capital is no small letter. -/
theorem capital_toUpper (c : Char) : c.toUpper.toUpper = c.toUpper := by
  rcases toUpper_cases c with h | h
  · rw [h, h]
  · refine Char.ext ((val_toUpper _).trans (if_neg fun hlower => ?_))
    have hlow : 97 ≤ c.toUpper.val.toNat := UInt32.le_iff_toNat_le.mp hlower.1
    have hhigh := (isUpper_iff.mp h).2
    omega

/-- The tables below 128 do what is relied on. -/
theorem capitals_asciiTables : asciiTables.Capitals := by
  refine ⟨fun c => ?_, fun c hc d hd => ?_, fun c => ?_⟩
  · simp [asciiTables]
  · obtain rfl : d = c.toUpper := by simpa [asciiTables] using hd
    -- Neither separator is a capital.
    rcases toUpper_cases c with h | h
    · rwa [h]
    · cases hsep : isSeparator c.toUpper with
      | false => rfl
      | true =>
        simp only [isSeparator, Bool.or_eq_true, beq_iff_eq] at hsep
        rcases hsep with heq | heq
        all_goals
          rw [heq] at h
          exact absurd h (by decide)
  · have hcapital : String.singleton c.toUpper.toUpper = String.singleton c.toUpper := by
      rw [capital_toUpper]
    simp only [capitalised, asciiTables, String.toList_singleton, hcapital, String.ofList_nil,
      String.append_empty]

/-- A message with one field. -/
def oneField (id name : String) : RawMessage where
  id := some id
  fields := some [{ name := some name, type := some "float", tag := some 1 }]

/-- Two ids for one struct, an id without a name for its struct, and a field for the topic. -/
theorem names_clash :
    (∃ msgs, messagesValidator asciiTables [oneField "air-quality" "pm25",
        oneField "air_quality" "pm25"] = .ok msgs ∧
      msgs.map (fun msg => pascalCase asciiTables msg.id) = ["AirQuality", "AirQuality"] ∧
      ¬NamesDistinct asciiTables msgs) ∧
    (∃ msgs, messagesValidator asciiTables [oneField "_" "pm25"] = .ok msgs ∧
      msgs.map (fun msg => pascalCase asciiTables msg.id) = [""] ∧
      ¬NamesDistinct asciiTables msgs) ∧
    ∃ msgs, messagesValidator asciiTables [oneField "door" "topic"] = .ok msgs ∧
      msgs.map actionMembers = [["topic", "retransmit_count", "topic"]] ∧
      ¬NamesDistinct asciiTables msgs := by
  refine ⟨⟨_, rfl, by decide, fun h => ?_⟩, ⟨_, rfl, by decide, fun h => ?_⟩,
    ⟨_, rfl, by decide, fun h => ?_⟩⟩
  · exact absurd h.structs (by decide)
  · exact (h.named _ (List.mem_singleton.mpr rfl)).1 (by decide)
  · exact absurd (h.actionMembers _ (List.mem_singleton.mpr rfl)) (by decide)

/-- **The names in the generated code are distinct if and only if** the ids are apart and no field
is named as another member. -/
theorem names_distinct_iff (hu : u.Capitals) (h : messagesValidator u raw = .ok msgs) :
    NamesDistinct u msgs ↔ NamesApart u msgs := by
  have hvalid := validate_of_messagesValidator h
  constructor
  · intro hnames
    refine ⟨fun msg hmsg => ?_, (structs_nodup_iff hu).mp hnames.structs, fun msg hmsg => ?_⟩
    · exact (pascalCase_ne_empty_iff hu).mp (hnames.named msg hmsg).1
    · exact (members_nodup_iff (hvalid msg hmsg)).mp
        ⟨hnames.structMembers msg hmsg, hnames.actionMembers msg hmsg⟩
  · intro hapart
    have hstructs := (structs_nodup_iff hu).mpr hapart.apart
    have hmembers (msg : Message) (hmsg : msg ∈ msgs) :=
      (members_nodup_iff (hvalid msg hmsg)).mpr (hapart.fields msg hmsg)
    refine ⟨fun msg hmsg => ⟨(pascalCase_ne_empty_iff hu).mpr (hapart.ids msg hmsg), ?_, ?_⟩,
      hstructs, classes_nodup hstructs, fun msg hmsg => (hmembers msg hmsg).1,
      fun msg hmsg => (hmembers msg hmsg).2⟩
    · simp [triggerClassOf]
    · simp [publishActionClass]

/-- Two messages whose names are apart. -/
theorem names_distinct_door : ∃ msgs, messagesValidator asciiTables
      [oneField "air-quality" "pm25", oneField "door" "angle"] = .ok msgs ∧
    NamesDistinct asciiTables msgs := by
  have hvalid : messagesValidator asciiTables
      [oneField "air-quality" "pm25", oneField "door" "angle"] =
    .ok [{ id := "air-quality", fields := [{ name := "pm25", type := "float", tag := 1 }] },
      { id := "door", fields := [{ name := "angle", type := "float", tag := 1 }] }] := rfl
  refine ⟨_, hvalid, (names_distinct_iff capitals_asciiTables hvalid).mpr ⟨?_, ?_, by decide⟩⟩
  · exact List.forall_mem_cons.mpr ⟨⟨'a', by decide, rfl⟩,
      List.forall_mem_singleton.mpr ⟨'d', by decide, rfl⟩⟩
  · refine List.pairwise_pair.mpr fun halike => ?_
    have heq := (pascalCase_eq_iff capitals_asciiTables).mpr halike
    exact absurd heq (by decide)

end Mpubsub.Theorems
