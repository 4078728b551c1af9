import Mpubsub.Theorems.Forwardable

/-!
# Messages relayed through JSON

What `ProtoToJSON` makes of a body, `JSONToProto` makes a body again. The decoded map is the same
where JSON has its values: the 64-bit integers that are exact in a `float64`, and strings that are
valid UTF-8. Each value is followed through the four conversions (`relay_scalar`), then the list of
a repeated field, and at last the members of the object.
-/

namespace Mpubsub.Theorems

open Mpubsub.Lib Mpubsub.Lib.Ieee754 Mpubsub.Bridge
open Mpubsub.Proto (FieldType)

/-- A value that JSON has. -/
def Travels : Value → Prop
  | .int64 n => binary64.Exact n.toInt.natAbs
  | .uint64 n => binary64.Exact n.toNat
  | .string s => ValidUtf8 s
  | _ => True

/-- The value of a field, or each element of its list. -/
def AllTravel : Value → Prop
  | .list l => ∀ elem ∈ l, Travels elem
  | v => Travels v

section

variable {v u g : Value} {type : FieldType} {typ : Bytes} {bound : Nat} {j : Json}

/-- An integer that is exact is read as itself. -/
theorem relay_integer {n : Int} (hlow : -2 ^ 63 ≤ n) (hhigh : n < 2 ^ 64)
    (hexact : binary64.Exact n.natAbs) :
    unmarshal (.integer n) = some (.float64 (floatOfInt n)) ∧
      binary64.toInt? (floatOfInt n).toNat = some n := by
  have hsmall : n.natAbs < 2 ^ 65 := by omega
  have hint : binary64.toInt? (floatOfInt n).toNat = some n := by
    rw [toNat_floatOfInt]
    exact Format.toInt?_ofInt hexact (Format.mul_scale_lt hsmall (by decide)) (by decide)
  obtain ⟨⟨hfinite, -⟩, -⟩ := Option.ite_none_right_eq_some.mp hint
  exact ⟨if_pos (decide_eq_true hfinite), hint⟩

theorem jsonScalarToGo_of_ne (h : fieldType typ = some type) (hne : type ≠ .bytes) (u : Value) :
    jsonScalarToGo typ u = .ok u := if_neg (typ_ne_bytes h hne)

/-- What comes out for a value of a type. -/
def Relays (typ : Bytes) (type : FieldType) (v : Value) (j : Json) : Prop :=
  ∃ u g, unmarshal j = some u ∧ jsonScalarToGo typ u = .ok g ∧ g.InRange type ∧ g.decoded type = v

theorem relays_signed (htype : fieldType typ = some type) (hne : type ≠ .bytes) {n : Int64}
    (hexact : binary64.Exact n.toInt.natAbs)
    (hrange : ∀ g : Value, g.integer? = some n.toInt → g.InRange type)
    (hdecoded : ∀ g : Value, g.decoded type = .int64 (Int64.ofInt (g.integer?.getD 0))) :
    Relays typ type (.int64 n) (.integer n.toInt) := by
  have hlow := n.le_toInt
  have hhigh := n.toInt_lt
  obtain ⟨hread, hint⟩ := relay_integer (by omega) (by omega) hexact
  have hg : (Value.float64 (floatOfInt n.toInt)).integer? = some n.toInt := hint
  refine ⟨_, _, hread, jsonScalarToGo_of_ne htype hne _, hrange _ hg, ?_⟩
  rw [hdecoded, hg, Option.getD_some, Int64.ofInt_toInt]

theorem relays_unsigned (htype : fieldType typ = some type) (hne : type ≠ .bytes) {n : UInt64}
    (hexact : binary64.Exact n.toNat)
    (hrange : ∀ g : Value, g.unsigned? = some (n.toNat : Int) → g.InRange type)
    (hdecoded : ∀ g : Value, g.decoded type = .uint64 (UInt64.ofNat (g.unsigned?.getD 0).toNat)) :
    Relays typ type (.uint64 n) (.integer n.toNat) := by
  have hhigh := n.toNat_lt
  obtain ⟨hread, hint⟩ := relay_integer (n := (n.toNat : Int)) (by omega) (by omega) hexact
  have hg : (Value.float64 (floatOfInt n.toNat)).unsigned? = some (n.toNat : Int) := hint
  refine ⟨_, _, hread, jsonScalarToGo_of_ne htype hne _, hrange _ hg, ?_⟩
  rw [hdecoded, hg, Option.getD_some, uint64_ofNat_uint64]

theorem relay_scalar (htype : fieldType typ = some type) (hread : v.ReadFrom bound type)
    (hbound : bound < 2 ^ 63) (htravels : Travels v)
    (hj : marshal (goScalarToJSON typ v) = some j) : Relays typ type v j := by
  have hplain (hne : type ≠ .bytes) : marshal v = some j :=
    (goScalarToJSON_of_ne htype hne v).symm ▸ hj
  obtain ⟨w, hw, hlen⟩ := hread
  -- A type goes with one kind of wire value.
  cases type with
  | bool =>
    cases w with
    | varint n =>
      cases hw
      cases hplain (by decide)
      exact ⟨_, _, rfl, jsonScalarToGo_of_ne htype (by decide) _, ⟨_, rfl⟩, rfl⟩
    | len payload | fixed32 bits => cases hw
  | int32 | sint32 =>
    cases w with
    | varint n =>
      cases hw
      cases hplain (by decide)
      refine relays_signed htype (by decide) htravels (fun g hg => ⟨_, hg, ?_⟩) fun g => rfl
      rw [Int32.toInt_toInt64]
      exact ⟨Int32.le_toInt _, Int32.toInt_lt _⟩
    | len payload | fixed32 bits => cases hw
  | int64 | sint64 =>
    cases w with
    | varint n =>
      cases hw
      cases hplain (by decide)
      exact relays_signed htype (by decide) htravels
        (fun g hg => ⟨_, hg, Int64.le_toInt _, Int64.toInt_lt _⟩) fun g => rfl
    | len payload | fixed32 bits => cases hw
  | uint32 =>
    cases w with
    | varint n =>
      cases hw
      cases hplain (by decide)
      refine relays_unsigned htype (by decide) htravels (fun g hg => ⟨_, hg, ?_⟩) fun g => rfl
      have := n.toUInt32.toNat_lt
      rw [UInt32.toNat_toUInt64]
      omega
    | len payload | fixed32 bits => cases hw
  | uint64 =>
    cases w with
    | varint n =>
      cases hw
      cases hplain (by decide)
      refine relays_unsigned htype (by decide) htravels (fun g hg => ⟨_, hg, ?_⟩) fun g => rfl
      have := n.toNat_lt
      omega
    | len payload | fixed32 bits => cases hw
  | float =>
    cases w with
    | fixed32 bits =>
      cases hw
      obtain ⟨-, heq⟩ := Option.ite_none_right_eq_some.mp (hplain (by decide))
      cases heq
      exact ⟨_, _, rfl, jsonScalarToGo_of_ne htype (by decide) _, ⟨bits, rfl⟩, rfl⟩
    | varint n | len payload => cases hw
  | string =>
    cases w with
    | len payload =>
      cases hw
      cases hplain (by decide)
      have hvalid : toValid (toValid payload) = payload := by
        rw [toValid_eq_iff.mpr htravels, toValid_eq_iff.mpr htravels]
      refine ⟨.string payload, _, congrArg (fun s => some (Value.string s)) hvalid,
        jsonScalarToGo_of_ne htype (by decide) _, ⟨payload, rfl, ?_⟩, rfl⟩
      exact Nat.lt_of_le_of_lt (hlen payload rfl) hbound
    | varint n | fixed32 bits => cases hw
  | bytes =>
    cases w with
    | len payload =>
      cases hw
      rw [goScalarToJSON_bytes htype] at hj
      cases hj
      have hvalid : toValid (toValid (Base64.encode payload)) = Base64.encode payload := by
        rw [toValid_eq_iff.mpr (Base64.validUtf8_encode payload),
          toValid_eq_iff.mpr (Base64.validUtf8_encode payload)]
      have hgo : jsonScalarToGo typ (.string (Base64.encode payload)) = .ok (.bytes payload) := by
        have htyp : typ = utf8 "bytes" := (typ_of_fieldType htype).symm
        rw [jsonScalarToGo, if_pos htyp]
        simp only [Base64.decode_encode]
      refine ⟨_, _, congrArg (fun s => some (Value.string s)) hvalid, hgo, ⟨payload, rfl, ?_⟩, rfl⟩
      exact Nat.lt_of_le_of_lt (hlen payload rfl) hbound
    | varint n | fixed32 bits => cases hw

/-- The elements of a list. -/
theorem relay_list (htype : fieldType typ = some type) (hbound : bound < 2 ^ 63) {l : List Value}
    (hread : ∀ elem ∈ l, elem.ReadFrom bound type) (htravels : ∀ elem ∈ l, Travels elem)
    {js : List Json} (hjs : marshalList (l.map (goScalarToJSON typ)) = some js) :
    ∃ us gs, unmarshalList js = some us ∧ (∀ i, jsonElementsToGo typ i us = .ok gs) ∧
      (∀ g ∈ gs, g.InRange type) ∧ gs.map (Value.decoded type) = l := by
  induction l generalizing js with
  | nil =>
    cases hjs
    exact ⟨[], [], rfl, fun i => rfl, fun g hg => absurd hg List.not_mem_nil, rfl⟩
  | cons v l ih =>
    rw [List.forall_mem_cons] at hread htravels
    obtain ⟨j, hj, hrest⟩ := Option.bind_eq_some_iff.mp hjs
    obtain ⟨js', hjs', heq⟩ := Option.bind_eq_some_iff.mp hrest
    cases heq
    obtain ⟨u, g, hu, hgo, hrange, hdecoded⟩ :=
      relay_scalar htype hread.1 hbound htravels.1 hj
    obtain ⟨us, gs, hus, hgos, hranges, hdecodeds⟩ := ih hread.2 htravels.2 hjs'
    refine ⟨u :: us, g :: gs, ?_, fun i => ?_, List.forall_mem_cons.mpr ⟨hrange, hranges⟩, ?_⟩
    · rw [unmarshalList, hu, hus]
      rfl
    · rw [jsonElementsToGo, hgo]
      simp only [hgos]
      rfl
    · rw [List.map_cons, hdecoded, hdecodeds]

/-- The value of a field. -/
theorem relay_field {f : SchemaField} (hhas : f.Has bound v) (hbound : bound < 2 ^ 63)
    (htravel : AllTravel v) (hj : marshal (goValueToJSON f v) = some j) :
    ∃ u g, unmarshal j = some u ∧ jsonValueToGo f u = .ok g ∧ f.InRange g ∧
      f.decoded g = some v := by
  obtain ⟨type, htype, hhas⟩ := hhas
  simp only [SchemaField.InRange, SchemaField.decoded, htype, Option.some.injEq,
    exists_eq_left', jsonValueToGo]
  unfold goValueToJSON at hj
  by_cases hrep : f.repeated = true
  · simp only [if_pos hrep] at hhas hj ⊢
    obtain ⟨l, rfl, hnil, hread⟩ := hhas
    obtain ⟨js, hjs, rfl⟩ := Option.map_eq_some_iff.mp hj
    obtain ⟨us, gs, hus, hgos, hranges, hdecoded⟩ := relay_list htype hbound hread htravel hjs
    refine ⟨.list us, .list gs, congrArg (Option.map Value.list) hus, ?_, ⟨gs, rfl, hranges⟩, ?_⟩
    · simp only [hgos]
      rfl
    · cases gs with
      | nil => exact absurd hdecoded.symm hnil
      | cons g gs => exact congrArg (fun l => some (Value.list l)) hdecoded
  · simp only [if_neg hrep] at hhas hj ⊢
    have halone : Travels v := by
      obtain ⟨w, hw, -⟩ := hhas
      cases v with
      | list l => cases type <;> cases w <;> cases hw
      | _ => exact htravel
    obtain ⟨u, g, hu, hgo, hrange, hdecoded⟩ := relay_scalar htype hhas hbound halone hj
    exact ⟨u, g, hu, hgo, hrange, congrArg some hdecoded⟩

end

/-! ## The members of the object -/

theorem unmarshalMembers_eq (members : List (Bytes × Json)) :
    unmarshalMembers members =
      (mapSnd unmarshal members).map fun l => l.map fun p => (toValid p.1, p.2) := by
  induction members with
  | nil => rfl
  | cons p members ih =>
    obtain ⟨k, j⟩ := p
    rw [unmarshalMembers, mapSnd, ih]
    cases unmarshal j with
    | none => rfl
    | some u => cases mapSnd unmarshal members <;> rfl

theorem map_toValid {α : Type} {l : List (Bytes × α)} (h : ∀ p ∈ l, ValidUtf8 p.1) :
    (l.map fun p => (toValid p.1, p.2)) = l := by
  refine (List.map_congr_left fun p hp => ?_).trans (List.map_id l)
  rw [toValid_eq_iff.mpr (h p hp)]
  rfl

/-- The object is read as a map with the same keys. -/
theorem unmarshalMap_sortMembers {members : List (Bytes × Json)}
    (hvalid : ∀ p ∈ members, ValidUtf8 p.1) (hnodup : (members.map Prod.fst).Nodup)
    (hall : ∀ p ∈ members, unmarshal p.2 ≠ none) :
    ∃ raw, unmarshalMap (.object (sortMembers members)) = some raw ∧
      ∀ k u, raw.get? k = some u ↔ ∃ j, (k, j) ∈ members ∧ unmarshal j = some u := by
  have hperm : (sortMembers members).Perm members := by
    have hsort := List.mergeSort_perm members fun p q => decide (p.1 ≤ q.1)
    rw [sortMembers, map_toValid fun p hp => hvalid p (hsort.mem_iff.mp hp)]
    exact hsort
  have hsome : mapSnd unmarshal (sortMembers members) ≠ none := by
    intro hnone
    obtain ⟨p, hp, hu⟩ := mapSnd_eq_none_iff.mp hnone
    exact hall p (hperm.mem_iff.mp hp) hu
  obtain ⟨us, hus⟩ := Option.ne_none_iff_exists'.mp hsome
  obtain ⟨hkeys, hmem⟩ := mapSnd_spec hus
  simp only [hperm.mem_iff] at hmem
  have hkeysPerm := hperm.map Prod.fst
  have hus' : (us.map fun p => (toValid p.1, p.2)) = us := by
    refine map_toValid fun p hp => ?_
    obtain ⟨j, hj, -⟩ := (hmem p.1 p.2).mp hp
    exact hvalid _ hj
  refine ⟨ofMembers us, ?_, fun k u => ?_⟩
  · rw [unmarshalMap, unmarshalMembers_eq, hus, Option.map_some, Option.map_some, hus']
  · have husNodup : (us.map Prod.fst).Nodup := by
      rw [hkeys]
      exact hkeysPerm.nodup_iff.mpr hnodup
    rw [ofMembers, Dict.get?_foldl_set husNodup, hmem]
    simp

section

variable {s : Schema}

/-- The loop of `JSONToProto` puts the value of every member under its key. -/
theorem foldlM_prepare {l : List (Bytes × Value)} (hnodup : (l.map Prod.fst).Nodup)
    (h : ∀ p ∈ l, ∃ f g, s.fieldNamed p.1 = some f ∧ jsonValueToGo f p.2 = .ok g)
    (d : Dict Bytes Value) :
    ∃ prepared, l.foldlM (prepare s) d = .ok prepared ∧
      (∀ k, k ∉ l.map Prod.fst → prepared.get? k = d.get? k) ∧
      ∀ k u f g, (k, u) ∈ l → s.fieldNamed k = some f → jsonValueToGo f u = .ok g →
        prepared.get? k = some g := by
  induction l generalizing d with
  | nil => exact ⟨d, rfl, fun k _ => rfl, fun k u f g hu => absurd hu List.not_mem_nil⟩
  | cons p l ih =>
    obtain ⟨a, u⟩ := p
    rw [List.map_cons, List.nodup_cons] at hnodup
    rw [List.forall_mem_cons] at h
    obtain ⟨⟨f, g, hf, hg⟩, hrest⟩ := h
    obtain ⟨prepared, hfold, hframe, hall⟩ := ih hnodup.2 hrest (d.set a g)
    refine ⟨prepared, ?_, fun k hk => ?_, fun k u' f' g' hu' hf' hg' => ?_⟩
    · rw [List.foldlM_cons, prepare]
      simp only [hf, hg]
      exact hfold
    · rw [List.map_cons, List.mem_cons, not_or] at hk
      rw [hframe k hk.2, Dict.get?_set, if_neg hk.1]
    · rcases List.mem_cons.mp hu' with heq | hmem
      · cases heq
        cases hf.symm.trans hf'
        cases hg.symm.trans hg'
        rw [hframe a hnodup.1, Dict.get?_set, if_pos rfl]
      · exact hall k u' f' g' hmem hf' hg'

variable {out : Dict Bytes Value} {bound : Nat} {members : List (Bytes × Json)}

/-- What comes out for every value of a decoded map. -/
theorem relay_member (hs : s.Valid) (howned : Owned s bound out) (hbound : bound < 2 ^ 63)
    (htravel : ∀ name v, out.get? name = some v → AllTravel v)
    (hmembers : mapSnd marshal (valuesToJSON s out).entries = some members) {name : Bytes}
    {v : Value} (hv : out.get? name = some v) :
    ∃ f ∈ s.fields, f.name = name ∧ ∃ j u g, (name, j) ∈ members ∧ unmarshal j = some u ∧
      jsonValueToGo f u = .ok g ∧ f.InRange g ∧ f.decoded g = some v := by
  obtain ⟨f, hf, rfl, hhas⟩ := howned _ _ hv
  have hget : (valuesToJSON s out).get? f.name = some (goValueToJSON f v) := by
    rw [get?_valuesToJSON hs hf, hv, Option.map_some]
  have hentry := Dict.mem_entries_iff.mpr hget
  cases hj : marshal (goValueToJSON f v) with
  | none =>
    have hnone := mapSnd_eq_none_iff.mpr ⟨_, hentry, hj⟩
    cases hnone.symm.trans hmembers
  | some j =>
    obtain ⟨u, g, hu, hgo, hrange, hdecoded⟩ := relay_field hhas hbound (htravel _ _ hv) hj
    exact ⟨f, hf, rfl, j, u, g, ((mapSnd_spec hmembers).2 _ _).mpr ⟨_, hentry, hj⟩, hu, hgo,
      hrange, hdecoded⟩

/-- A map that was read from the object of a decoded map: under the same names it has values that
decode to the ones that were there. -/
structure Reread (s : Schema) (out raw : Dict Bytes Value) : Prop where
  keys : ∀ name, raw.get? name = none → out.get? name = none
  values : ∀ name u, raw.get? name = some u → ∃ f ∈ s.fields, f.name = name ∧ ∃ v g,
    out.get? name = some v ∧ jsonValueToGo f u = .ok g ∧ f.InRange g ∧ f.decoded g = some v

/-- The object of a decoded map reads back. -/
theorem exists_reread (hs : s.Valid) (howned : Owned s bound out) (hbound : bound < 2 ^ 63)
    (htravel : ∀ name v, out.get? name = some v → ValidUtf8 name ∧ AllTravel v)
    (hmembers : mapSnd marshal (valuesToJSON s out).entries = some members) :
    ∃ raw, unmarshalMap (.object (sortMembers members)) = some raw ∧ Reread s out raw := by
  have hmember {name : Bytes} {v : Value} (hv : out.get? name = some v) :=
    relay_member hs howned hbound (fun name v hv => (htravel name v hv).2) hmembers hv
  -- The keys of the object are those of the decoded map.
  have hkeys : members.map Prod.fst = out.entries.map Prod.fst :=
    (mapSnd_spec hmembers).1.trans (map_fst_valuesToJSON s out)
  have hnodup : (members.map Prod.fst).Nodup := by
    rw [hkeys]
    exact out.nodup
  have hout {k : Bytes} {j : Json} (h : (k, j) ∈ members) :
      ∃ v, out.get? k = some v ∧ ∃ f ∈ s.fields, f.name = k ∧ ∃ u g, unmarshal j = some u ∧
        jsonValueToGo f u = .ok g ∧ f.InRange g ∧ f.decoded g = some v := by
    have hmem : k ∈ members.map Prod.fst := List.mem_map.mpr ⟨(k, j), h, rfl⟩
    rw [hkeys] at hmem
    obtain ⟨v, hv⟩ := Dict.mem_keys_iff.mp hmem
    obtain ⟨f, hf, hname, j', u, g, hj', hrest⟩ := hmember hv
    obtain rfl : j' = j := by
      have hpair := List.inj_on_of_nodup_map hnodup hj' h rfl
      exact congrArg Prod.snd hpair
    exact ⟨v, hv, f, hf, hname, u, g, hrest⟩
  have hvalid : ∀ p ∈ members, ValidUtf8 p.1 := by
    intro p hp
    obtain ⟨v, hv, -⟩ := hout hp
    exact (htravel p.1 v hv).1
  have hread : ∀ p ∈ members, unmarshal p.2 ≠ none := by
    intro p hp hnone
    obtain ⟨v, -, f, -, -, u, g, hu, -⟩ := hout hp
    cases hnone.symm.trans hu
  obtain ⟨raw, hraw, hget⟩ := unmarshalMap_sortMembers hvalid hnodup hread
  refine ⟨raw, hraw, ?_, ?_⟩
  · intro name hnone
    by_contra hne
    obtain ⟨v, hv⟩ := Option.ne_none_iff_exists'.mp hne
    obtain ⟨f, hf, -, j, u, g, hj, hu, -⟩ := hmember hv
    cases hnone.symm.trans ((hget name u).mpr ⟨j, hj, hu⟩)
  · intro name u hu
    obtain ⟨j, hj, hu⟩ := (hget name u).mp hu
    obtain ⟨v, hv, f, hf, hname, u', g, hu', hrest⟩ := hout hj
    cases hu.symm.trans hu'
    exact ⟨f, hf, hname, v, g, hv, hrest⟩

theorem Reread.known {raw : Dict Bytes Value} (h : Reread s out raw) (hs : s.Valid) :
    (raw.entries.find? fun p => s.byName.get? p.1 = none) = none := by
  rw [List.find?_eq_none]
  intro p hp hnone
  obtain ⟨f, hf, hname, -⟩ := h.values _ _ (Dict.mem_entries_iff.mp hp)
  have hnamed := fieldNamed_of_mem hs hf
  rw [hname, Schema.fieldNamed, of_decide_eq_true hnone] at hnamed
  cases hnamed

/-- The loop of `JSONToProto` goes through it, and under the name of a field is a value that
decodes to the one that was there. -/
theorem Reread.exists_prepared {raw : Dict Bytes Value} (h : Reread s out raw) (hs : s.Valid) :
    ∃ prepared, raw.entries.foldlM (prepare s) .empty = .ok prepared ∧
      ∀ f ∈ s.fields, (∀ v, prepared.get? f.name = some v → f.InRange v) ∧
        (prepared.get? f.name).bind f.decoded = out.get? f.name := by
  have hprepare : ∀ p ∈ raw.entries, ∃ f g,
      s.fieldNamed p.1 = some f ∧ jsonValueToGo f p.2 = .ok g := by
    intro p hp
    obtain ⟨f, hf, hname, v, g, -, hgo, -⟩ := h.values _ _ (Dict.mem_entries_iff.mp hp)
    exact ⟨f, g, hname ▸ fieldNamed_of_mem hs hf, hgo⟩
  obtain ⟨prepared, hfold, hframe, hprepared⟩ := foldlM_prepare raw.nodup hprepare .empty
  refine ⟨prepared, hfold, ?_⟩
  intro f hf
  cases hu : raw.get? f.name with
  | none =>
    have hnone : prepared.get? f.name = none := by
      refine (hframe f.name fun hmem => ?_).trans (Dict.get?_empty _)
      obtain ⟨u, hsome⟩ := Dict.mem_keys_iff.mp hmem
      cases hu.symm.trans hsome
    rw [hnone, h.keys _ hu]
    exact ⟨fun v hv => (by cases hv), rfl⟩
  | some u =>
    obtain ⟨f', hf', hname, v, g, hv, hgo, hrange, hdecoded⟩ := h.values _ _ hu
    obtain rfl := List.inj_on_of_nodup_map hs.accepted.names hf' hf hname
    rw [hprepared _ u f' g (Dict.mem_entries_iff.mpr hu) (fieldNamed_of_mem hs hf') hgo, hv]
    refine ⟨fun v' hv' => ?_, hdecoded⟩
    cases hv'
    exact hrange

end

/-! ## The message -/

/-- What comes back has the same values under the same names. -/
theorem relay_message {s : Schema} (hs : s.Valid) (conv : FloatConversion) {body : Bytes}
    {out : Dict Bytes Value} {json : Json} (hbody : body.length < 2 ^ 63)
    (hdecode : decodeProto s body = .ok out) (hjson : protoToJSON s body = .ok json)
    (htravel : ∀ name v, out.get? name = some v → ValidUtf8 name ∧ AllTravel v) :
    ∃ body' out', jsonToProto conv s json = .ok body' ∧ decodeProto s body' = .ok out' ∧
      ∀ name, out'.get? name = out.get? name := by
  have howned := owned_of_decodeProto hs.accepted.names hdecode
  rw [protoToJSON_eq hdecode] at hjson
  cases hmembers : mapSnd marshal (valuesToJSON s out).entries with
  | none =>
    rw [hmembers] at hjson
    cases hjson
  | some members =>
    rw [hmembers] at hjson
    cases hjson
    obtain ⟨raw, hraw, hread⟩ := exists_reread hs howned hbody htravel hmembers
    obtain ⟨prepared, hfold, hfield⟩ := hread.exists_prepared hs
    obtain ⟨body', out', hencode, hdecode', hout', hother⟩ :=
      decodeProto_encodeProto conv hs fun f hf v hv => (hfield f hf).1 v hv
    refine ⟨body', out', ?_, hdecode', fun name => ?_⟩
    · unfold jsonToProto
      simp only [hraw, hread.known hs, hfold, ok_bind, hencode]
      rfl
    · by_cases hname : name ∈ s.fields.map SchemaField.name
      · obtain ⟨f, hf, rfl⟩ := List.mem_map.mp hname
        rw [hout' f hf, (hfield f hf).2]
      · rw [hother name hname]
        cases hv : out.get? name with
        | none => rfl
        | some v =>
          obtain ⟨f, hf, rfl, -⟩ := howned _ _ hv
          exact absurd (List.mem_map.mpr ⟨f, hf, rfl⟩) hname

/-! ## An integer that is rounded -/

/-- The field `total`. -/
def total : SchemaField := ⟨utf8 "total", utf8 "int64", 2, false⟩

/-- The body with the least positive integer that is not exact. -/
def largeTotal : Bytes := [0x10, 0x81, 0x80, 0x80, 0x80, 0x80, 0x80, 0x80, 0x10]

/-- What `json.Unmarshal` makes of it. -/
def roundedTotal : Dict Bytes Value :=
  Dict.empty.set (utf8 "total") (.float64 0x4340000000000000)

section

variable {s : Schema} (hs : s.Valid) (hfields : s.fields = sensorFields)
include hs hfields

theorem mem_total : total ∈ s.fields ∧ s.fieldNamed (utf8 "total") = some total := by
  have hmem : total ∈ s.fields := by
    rw [hfields]
    exact List.mem_cons_of_mem _ List.mem_cons_self
  exact ⟨hmem, fieldNamed_of_mem hs hmem⟩

theorem decode_largeTotal :
    decodeProto s largeTotal = .ok (Dict.empty.set (utf8 "total") (.int64 9007199254740993)) := by
  have hval : decodeValue (largeTotal.drop 1) (utf8 "int64") 0 =
      .ok (.int64 9007199254740993, 8) :=
    decodeValue_eq_ok_iff.mpr ⟨_, .varint 9007199254740993, fieldType_int64, by decide, rfl⟩
  exact decodeProto_iff.mpr ⟨[(total, .int64 9007199254740993)],
    .take ⟨0x10, 1, 8, rfl, fieldWithTag_of_mem hs (mem_total hs hfields).1, hval, rfl⟩ .done, rfl⟩

theorem protoToJSON_largeTotal :
    protoToJSON s largeTotal = .ok (.object [(utf8 "total", .integer 9007199254740993)]) := by
  have hvalue : goValueToJSON total (.int64 9007199254740993) = .int64 9007199254740993 :=
    goScalarToJSON_of_ne fieldType_int64 (by decide) _
  have hentries : (valuesToJSON s
      (Dict.empty.set (utf8 "total") (.int64 9007199254740993))).entries =
        [(utf8 "total", .int64 9007199254740993)] := by
    show [(utf8 "total", _)] = _
    simp only [(mem_total hs hfields).2, hvalue]
  have hkey : toValid (utf8 "total") = utf8 "total" := toValid_eq_iff.mpr ⟨_, rfl⟩
  rw [protoToJSON_eq (decode_largeTotal hs hfields), hentries]
  simp only [mapSnd, marshal, Option.bind_some, Option.map_some, sortMembers,
    List.mergeSort_singleton, List.map_cons, List.map_nil, hkey]
  rfl

omit hs hfields in
theorem unmarshalMap_largeTotal :
    unmarshalMap (.object [(utf8 "total", .integer 9007199254740993)]) = some roundedTotal := by
  have hfloat : floatOfInt 9007199254740993 = 0x4340000000000000 := by decide +kernel
  have hfinite : isFinite 0x4340000000000000 = true := by decide +kernel
  have hkey : toValid (utf8 "total") = utf8 "total" := toValid_eq_iff.mpr ⟨_, rfl⟩
  rw [unmarshalMap, unmarshalMembers_eq]
  simp only [mapSnd, unmarshal, hfloat, if_pos hfinite, Option.bind_some, Option.map_some,
    List.map_cons, List.map_nil, hkey]
  rfl

theorem prepare_roundedTotal :
    (roundedTotal.entries.find? fun p => s.byName.get? p.1 = none) = none ∧
      roundedTotal.entries.foldlM (prepare s) .empty = .ok roundedTotal := by
  have hnamed := (mem_total hs hfields).2
  constructor
  · obtain ⟨idx, hidx, -⟩ := Option.bind_eq_some_iff.mp hnamed
    rw [List.find?_eq_none]
    intro p hp
    obtain rfl : p = (utf8 "total", .float64 0x4340000000000000) := List.mem_singleton.mp hp
    rw [hidx]
    exact Bool.false_ne_true
  · have hgo : jsonValueToGo total (.float64 0x4340000000000000) =
        .ok (.float64 0x4340000000000000) := jsonScalarToGo_of_ne fieldType_int64 (by decide) _
    show prepare s .empty (utf8 "total", .float64 0x4340000000000000) >>= _ = _
    rw [prepare]
    simp only [hnamed, hgo]
    rfl

/-- It comes back as the even integer next to it. -/
theorem relay_largeTotal (conv : FloatConversion) :
    ∃ body out, jsonToProto conv s (.object [(utf8 "total", .integer 9007199254740993)]) =
        .ok body ∧ decodeProto s body = .ok out ∧
      out.get? (utf8 "total") = some (.int64 9007199254740992) := by
  have hmem := (mem_total hs hfields).1
  have hint : Value.integer? (.float64 0x4340000000000000) = some 9007199254740992 := by
    rw [Value.integer?]
    decide +kernel
  have hrange : ∀ f ∈ s.fields, ∀ v, roundedTotal.get? f.name = some v → f.InRange v := by
    intro f hf v hv
    rw [roundedTotal, Dict.get?_set] at hv
    obtain ⟨hname, heq⟩ := Option.ite_none_right_eq_some.mp hv
    cases heq
    obtain rfl := List.inj_on_of_nodup_map hs.accepted.names hf hmem hname
    exact ⟨_, fieldType_int64, _, hint, by decide, by decide⟩
  obtain ⟨body, out, hencode, hout, hback, -⟩ := decodeProto_encodeProto conv hs hrange
  obtain ⟨hfind, hprepare⟩ := prepare_roundedTotal hs hfields
  refine ⟨body, out, ?_, hout, ?_⟩
  · unfold jsonToProto
    simp only [unmarshalMap_largeTotal, hfind, hprepare, ok_bind, hencode]
    rfl
  · have hdecoded : total.decoded (.float64 0x4340000000000000) =
        some (.int64 (Int64.ofInt ((Value.integer? (.float64 0x4340000000000000)).getD 0))) := by
      unfold SchemaField.decoded
      rw [show fieldType total.type = some .int64 from fieldType_int64]
      rfl
    refine (hback total hmem).trans (hdecoded.trans ?_)
    rw [hint]
    rfl

end

/-- A message does not come back unchanged: the integer is another. -/
theorem large_total_rounded :
    ∃ s json body out, newSchema (utf8 "sensor") sensorFields = .ok s ∧
      decodeProto s largeTotal = .ok (Dict.empty.set (utf8 "total") (.int64 9007199254740993)) ∧
      protoToJSON s largeTotal = .ok json ∧
      jsonToProto ⟨fun _ => 0, fun _ => 0⟩ s json = .ok body ∧ decodeProto s body = .ok out ∧
      out.get? (utf8 "total") = some (.int64 9007199254740992) := by
  obtain ⟨s, hs⟩ := newSchema_of_accepted accepted_sensorFields
  obtain ⟨-, hfields, hvalid⟩ := valid_of_newSchema hs
  obtain ⟨body, out, hrelay, hout, hget⟩ := relay_largeTotal hvalid hfields ⟨fun _ => 0, fun _ => 0⟩
  exact ⟨s, _, body, out, hs, decode_largeTotal hvalid hfields,
    protoToJSON_largeTotal hvalid hfields, hrelay, hout, hget⟩

/-- **A message that the bridge has forwarded as JSON comes back unchanged** where the decoded names
and strings are valid UTF-8 and the decoded integers exact in a `float64`. -/
theorem json_relay {id : Bytes} {fields : List SchemaField} {s : Schema}
    (h : newSchema id fields = .ok s) (conv : FloatConversion) {body : Bytes}
    {out : Dict Bytes Value} {json : Json} (hbody : body.length < 2 ^ 63)
    (hdecode : decodeProto s body = .ok out) (hjson : protoToJSON s body = .ok json)
    (htravel : ∀ name v, out.get? name = some v → ValidUtf8 name ∧ AllTravel v) :
    ∃ body' out', jsonToProto conv s json = .ok body' ∧ decodeProto s body' = .ok out' ∧
      ∀ name, out'.get? name = out.get? name := by
  obtain ⟨-, -, hs⟩ := valid_of_newSchema h
  exact relay_message hs conv hbody hdecode hjson htravel

/-- A schema with a 64-bit integer, a text, bytes and a list. -/
def reportFields : List SchemaField :=
  [⟨utf8 "total", utf8 "int64", 1, false⟩, ⟨utf8 "label", utf8 "string", 2, false⟩,
    ⟨utf8 "raw", utf8 "bytes", 3, false⟩, ⟨utf8 "levels", utf8 "float", 4, true⟩]

theorem accepted_reportFields : Accepted (utf8 "report") reportFields where
  named := by decide +kernel
  nonempty := List.cons_ne_nil _ _
  each := by
    simp only [reportFields, List.forall_mem_cons]
    exact ⟨⟨by decide, by decide, by decide +kernel⟩, ⟨by decide, by decide, by decide +kernel⟩,
      ⟨by decide, by decide, by decide +kernel⟩, ⟨by decide, by decide, by decide +kernel⟩,
      fun f hf => absurd hf List.not_mem_nil⟩
  tags := by decide
  names := by decide +kernel

/-- The integer -3, the text "hi", the bytes DE AD and the numbers 1.5 and 2.5. -/
def reportBody : Bytes :=
  [0x08, 0xFD, 0xFF, 0xFF, 0xFF, 0xFF, 0xFF, 0xFF, 0xFF, 0xFF, 0x01, 0x12, 0x02, 0x68, 0x69,
    0x1A, 0x02, 0xDE, 0xAD, 0x25, 0x00, 0x00, 0xC0, 0x3F, 0x25, 0x00, 0x00, 0x20, 0x40]

/-- The values in it. -/
def reportValues : List (SchemaField × Value) :=
  [(⟨utf8 "total", utf8 "int64", 1, false⟩, .int64 (-3)),
    (⟨utf8 "label", utf8 "string", 2, false⟩, .string [0x68, 0x69]),
    (⟨utf8 "raw", utf8 "bytes", 3, false⟩, .bytes [0xDE, 0xAD]),
    (⟨utf8 "levels", utf8 "float", 4, true⟩, .float64 (widen 0x3FC00000)),
    (⟨utf8 "levels", utf8 "float", 4, true⟩, .float64 (widen 0x40200000))]

theorem passes_report {s : Schema} (hs : s.Valid) (hfields : s.fields = reportFields) :
    Passes s reportBody reportValues := by
  have hmem (i : Fin 4) : reportFields.get i ∈ s.fields := by
    rw [hfields]
    exact List.get_mem _ _
  have hstring : fieldType (utf8 "string") = some .string := by decide +kernel
  have hbytes : fieldType (utf8 "bytes") = some .bytes := by decide +kernel
  refine .take (takes_of_parts 0x08 1 (.varint 0xFFFFFFFFFFFFFFFD) 10 hs (hmem 0) (by decide) rfl
    fieldType_int64 (by decide) rfl) ?_
  refine .take (takes_of_parts 0x12 1 (.len [0x68, 0x69]) 3 hs (hmem 1) (by decide) rfl hstring
    (by decide) rfl) ?_
  refine .take (takes_of_parts 0x1A 1 (.len [0xDE, 0xAD]) 3 hs (hmem 2) (by decide) rfl hbytes
    (by decide) rfl) ?_
  refine .take (takes_of_parts 0x25 1 (.fixed32 0x3FC00000) 4 hs (hmem 3) (by decide) rfl
    fieldType_float (by decide) rfl) ?_
  exact .take (takes_of_parts 0x25 1 (.fixed32 0x40200000) 4 hs (hmem 3) (by decide) rfl
    fieldType_float (by decide) rfl) .done

/-- What they make together. -/
def report : Dict Bytes Value :=
  (((Dict.empty.set (utf8 "total") (.int64 (-3))).set (utf8 "label") (.string [0x68, 0x69])).set
    (utf8 "raw") (.bytes [0xDE, 0xAD])).set (utf8 "levels")
      (.list [.float64 (widen 0x3FC00000), .float64 (widen 0x40200000)])

theorem decode_report {s : Schema} (hs : s.Valid) (hfields : s.fields = reportFields) :
    decodeProto s reportBody = .ok report :=
  decodeProto_iff.mpr ⟨_, passes_report hs hfields, rfl⟩

theorem report_cases {name : Bytes} {v : Value} (h : report.get? name = some v) :
    ValidUtf8 name ∧ v.Finite ∧ AllTravel v := by
  rw [report, Dict.get?_set, Dict.get?_set, Dict.get?_set, Dict.get?_set, Dict.get?_empty] at h
  split at h
  · rename_i hname
    cases h
    refine ⟨⟨_, hname.symm⟩, ?_, ?_⟩
    · intro bits hbits
      simp only [List.mem_cons, Value.float64.injEq, List.not_mem_nil, or_false] at hbits
      rcases hbits with rfl | rfl <;> decide +kernel
    · intro elem helem
      simp only [List.mem_cons, List.not_mem_nil, or_false] at helem
      rcases helem with rfl | rfl <;> trivial
  split at h
  · rename_i hname
    cases h
    exact ⟨⟨_, hname.symm⟩, trivial, trivial⟩
  split at h
  · rename_i hname
    cases h
    exact ⟨⟨_, hname.symm⟩, trivial, ⟨"hi", by decide +kernel⟩⟩
  split at h
  · rename_i hname
    cases h
    exact ⟨⟨_, hname.symm⟩, trivial, 3, 0, by decide, by decide⟩
  · cases h

/-- A message with these. -/
theorem json_relay_report :
    ∃ s json body' out', newSchema (utf8 "report") reportFields = .ok s ∧
      protoToJSON s reportBody = .ok json ∧
      jsonToProto ⟨fun _ => 0, fun _ => 0⟩ s json = .ok body' ∧ decodeProto s body' = .ok out' ∧
      ∀ name, out'.get? name = report.get? name := by
  obtain ⟨s, hs⟩ := newSchema_of_accepted accepted_reportFields
  obtain ⟨-, hfields, hvalid⟩ := valid_of_newSchema hs
  have hdecode := decode_report hvalid hfields
  obtain ⟨members, hjson, -⟩ := (forwards_iff hvalid hdecode).mpr fun name v hv =>
    ⟨(report_cases hv).1, (report_cases hv).2.1⟩
  obtain ⟨body', out', hback, hout', hsame⟩ :=
    json_relay hs ⟨fun _ => 0, fun _ => 0⟩ (by decide) hdecode hjson fun name v hv =>
      ⟨(report_cases hv).1, (report_cases hv).2.2⟩
  exact ⟨s, _, body', out', hs, hjson, hback, hout', hsame⟩

end Mpubsub.Theorems
