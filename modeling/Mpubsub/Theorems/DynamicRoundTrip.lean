import Mpubsub.Node.Dynamic

/-!
# What is added to a `DynamicMessage` comes out of a `DynamicReader`

For all sequences of `add_*` calls, nested as deep as they like, and for bytes that nothing of the
kind has built, over which a reader comes to an end without leaving them.
-/

namespace Mpubsub.Theorems

open Mpubsub.Lib Mpubsub.Node Mpubsub.Proto

variable {enc : ProtoEncode} {varInt : ProtoVarInt} {zigzag : Zigzag}

/-- The span that an accessor returns, or the bytes of the reader that `as_message` does. -/
def Views (f : DynamicField) (span : ByteSpan) : Prop :=
  f.asString = some span ∨ f.asBytes = some span ∨ f.asMessage = some (.ofSpan span)

/-- A reader that has been called any number of times is inside the bytes; a field that it returns
moves it forward and lies inside; an error stays, and keeps anything from being returned. -/
structure Inside (varInt : ProtoVarInt) (mem : Mem) (span : ByteSpan) (r : DynamicReader) :
    Prop where
  cur : span.data ≤ r.cur ∧ r.cur ≤ r.stop ∧ r.stop = span.data + span.size
  field : ∀ r' f, r.next varInt mem = (r', some f) → r.cur < r'.cur ∧
    ∀ view, Views f view → span.data ≤ view.data ∧ view.data + view.size ≤ span.data + span.size
  error : r.error = true → r.next varInt mem = (r, none)

theorem views_rawLength {f : DynamicField} {view : ByteSpan} (h : Views f view) :
    f.wireType = .LENGTH_DELIMITED ∧ f.rawLength.data = view.data ∧
      f.rawLength.size = view.size := by
  by_cases hwire : f.wireType = .LENGTH_DELIMITED
  · refine ⟨hwire, ?_⟩
    rcases h with h | h | h
    · simp only [DynamicField.asString, hwire, ne_eq, not_true, if_false, Option.some.injEq] at h
      exact ⟨congrArg _ h, congrArg _ h⟩
    · simp only [DynamicField.asBytes, hwire, ne_eq, not_true, if_false, Option.some.injEq] at h
      exact ⟨congrArg _ h, congrArg _ h⟩
    · simp only [DynamicField.asMessage, hwire, ne_eq, not_true, if_false, Option.some.injEq,
        DynamicReader.ofSpan, DynamicReader.mk.injEq, and_true] at h
      omega
  · simp [Views, DynamicField.asString, DynamicField.asBytes, DynamicField.asMessage, hwire] at h

theorem inside_after (hvar : varInt.Standard) (mem : Mem) (span : ByteSpan) (n : Nat) :
    Inside varInt mem span ((DynamicReader.ofSpan span).after varInt mem n) := by
  obtain ⟨hcur, hbound, hstop⟩ := DynamicReader.after_inside (r := .ofSpan span) hvar mem
    (Nat.le_add_right _ _) n
  refine ⟨⟨hcur, hstop.symm ▸ hbound, hstop⟩, fun r' f hnext => ?_, fun herror => ?_⟩
  · obtain ⟨hsame, -⟩ | ⟨r'', hnext', -⟩ | ⟨r'', f', hnext', -, -, -, hforward, -, hspan⟩ :=
      DynamicReader.next_cases hvar mem (hstop.symm ▸ hbound)
    · cases hsame.symm.trans hnext
    · cases hnext'.symm.trans hnext
    · cases hnext'.symm.trans hnext
      refine ⟨hforward, fun view hview => ?_⟩
      obtain ⟨hwire, hdata, hlen⟩ := views_rawLength hview
      obtain ⟨hlow, hhigh⟩ := hspan hwire
      rw [hdata] at hlow hhigh
      rw [hlen, hstop] at hhigh
      exact ⟨Nat.le_trans hcur hlow, hhigh⟩
  · rw [DynamicReader.next, if_pos (.inl herror)]

/-- **A reader over a message yields what was added**, with lengths of a `size_t` of 32 bits; and
over any bytes it stays inside them and returns at most one field for each. -/
theorem dynamic_round_trip (henc : enc.Standard) (hvar : varInt.Standard)
    (hzigzag : zigzag.Standard) :
    (∀ adds : Adds, adds.TagsOk → (adds.run enc {}).bytes.length < 2 ^ 32 →
      ∀ (mem : Mem) (span : ByteSpan), mem.load span.data span.size = (adds.run enc {}).bytes →
        (DynamicReader.ofSpan span).Yields varInt zigzag mem adds) ∧
    ∀ (mem : Mem) (span : ByteSpan),
      (∀ n, Inside varInt mem span ((DynamicReader.ofSpan span).after varInt mem n)) ∧
      ∃ n ≤ span.size, ∀ k,
        (((DynamicReader.ofSpan span).after varInt mem (n + k)).next varInt mem).2 = none := by
  constructor
  · intro adds htags hsize mem span hload
    have hlength : (adds.run enc {}).bytes.length = adds.encoding.length := by
      rw [DynamicMessage.bytes, Adds.length_run henc]
      exact Nat.zero_add _
    have hbytes : (adds.run enc {}).bytes = adds.encoding :=
      Adds.run_eq henc htags (hlength ▸ hsize) {}
    have hspan := congrArg List.length hload
    rw [Mem.length_load] at hspan
    refine DynamicReader.yields hvar hzigzag rfl (Nat.le_add_right _ _) ?_ ?_
    · simp only [DynamicReader.ofSpan]
      omega
    · simp only [DynamicReader.ofSpan, Nat.add_sub_cancel_left]
      rw [hload, hbytes]
  · intro mem span
    refine ⟨inside_after hvar mem span, ?_⟩
    have hle : (DynamicReader.ofSpan span).cur ≤ (DynamicReader.ofSpan span).stop :=
      Nat.le_add_right _ _
    obtain ⟨n, hn, hnone⟩ := DynamicReader.exists_none hvar mem hle
    rw [DynamicReader.ofSpan, Nat.add_sub_cancel_left] at hn
    exact ⟨n, hn, DynamicReader.after_add hvar hle hnone⟩

/-- A message with a nested one. -/
def nestedAdds : Adds :=
  .value .sint32 1 (-3 : Int32) (.message 2 (.value .string 1 ([0x61] : Bytes) .done) (.value .bool 3 true .done))

theorem dynamic_round_trip_standard :
    (∀ (mem : Mem) (span : ByteSpan),
      mem.load span.data span.size = (nestedAdds.run .standard {}).bytes →
        (DynamicReader.ofSpan span).Yields .standard .standard mem nestedAdds) ∧
    ∀ n, Inside .standard (fun _ => 0x0A) ⟨0, 3⟩
      ((DynamicReader.ofSpan ⟨0, 3⟩).after .standard (fun _ => 0x0A) n) := by
  have h := dynamic_round_trip ProtoEncode.standard_standard ProtoVarInt.standard_standard
    Zigzag.standard_standard
  refine ⟨h.1 nestedAdds ?_ ?_, (h.2 _ _).1⟩
  · simp only [nestedAdds, Adds.TagsOk]
    decide
  · rw [DynamicMessage.bytes, Adds.length_run ProtoEncode.standard_standard]
    decide

end Mpubsub.Theorems
