import Mpubsub.Theorems.SchemaFingerprint

/-!
# The order of the lines

The canonical schema string sorts the rendered lines, not the fields by tag. The two orders
are the same unless a tag is at least the number that the leading digits of a longer tag make
(`canonical_by_tag_iff`): 2 comes behind 10, and so does 1.
-/

namespace Mpubsub.Theorems

open Mpubsub.Lib Mpubsub.Proto

/-- The string lists the fields by tag. -/
def ListsByTag (msg : Proto.Message) : Prop :=
  ∃ fields : List Proto.Field, fields.Perm msg.fields ∧
    fields.Pairwise (fun f g => f.tag < g.tag) ∧
    canonicalSchemaString msg = "\n".intercalate (fields.map canonicalLine)

/-- A smaller tag is also smaller than the leading digits of the larger one. -/
def TagsAligned (msg : Proto.Message) : Prop :=
  ∀ f ∈ msg.fields, ∀ g ∈ msg.fields, f.tag < g.tag →
    f.tag.toNat < leading f.tag.toNat g.tag.toNat

/-! ## Two lines -/

/-- A line begins with its tag. -/
theorem toList_canonicalLine {f : Proto.Field} (h : f.Ok) :
    ∃ rest, (canonicalLine f).toList = f.tag.toNat.repr.toList ++ ':' :: rest := by
  refine ⟨(typeString f.repeated f.type).toList ++ ':' :: f.name.toList, ?_⟩
  rw [canonicalLine_eq h, String.toList_intercalate, columns]
  simp [List.intercalate_cons_cons]

theorem canonicalLine_lt_iff {f g : Proto.Field} (hf : f.Ok) (hg : g.Ok)
    (hlt : f.tag < g.tag) :
    canonicalLine f < canonicalLine g ↔ f.tag.toNat < leading f.tag.toNat g.tag.toNat := by
  have hf1 := hf.range
  obtain ⟨x, hx⟩ := toList_canonicalLine hf
  obtain ⟨y, hy⟩ := toList_canonicalLine hg
  rw [String.lt_iff, hx, hy]
  exact repr_append_lt_iff (by omega) (by decide) x y

/-- Texts that begin with lines of fields begin with the same tag. -/
theorem tag_eq_of_append {f g : Proto.Field} (hf : f.Ok) (hg : g.Ok) {x y : String}
    (h : canonicalLine f ++ x = canonicalLine g ++ y) : f.tag = g.tag := by
  have hf1 := hf.range
  have hg1 := hg.range
  obtain ⟨u, hu⟩ := toList_canonicalLine hf
  obtain ⟨v, hv⟩ := toList_canonicalLine hg
  have hcolon (n : Nat) : ∀ c ∈ n.repr.toList, (fun c => c != ':') c = true := by
    intro c hc
    rw [bne_iff_ne]
    rintro rfl
    exact absurd (isDigit_of_mem_repr hc) (by decide)
  -- What stands before the first colon.
  have htag {n : Nat} {z : List Char} :
      (n.repr.toList ++ ':' :: z).takeWhile (fun c => c != ':') = n.repr.toList := by
    rw [List.takeWhile_append_of_pos (hcolon n), List.takeWhile_cons_of_neg (by decide),
      List.append_nil]
  have hlist := congrArg (fun s => s.toList.takeWhile fun c => c != ':') h
  simp only [String.toList_append, hu, hv, List.append_assoc, List.cons_append, htag] at hlist
  have := repr_inj.mp (String.toList_inj.mp hlist)
  omega

/-! ## Two lists of lines -/

/-- Joined lines of distinct tags say which fields they are of, whatever the names. -/
theorem fields_eq_of_joined {fs gs : List Proto.Field} (hlen : fs.length = gs.length)
    (hfs : ∀ f ∈ fs, f.Ok) (hgs : ∀ g ∈ gs, g.Ok)
    (htag : ∀ f ∈ fs, ∀ g ∈ gs, f.tag = g.tag → f = g)
    (h : "\n".intercalate (fs.map canonicalLine) = "\n".intercalate (gs.map canonicalLine)) :
    fs = gs := by
  induction fs generalizing gs with
  | nil => exact (List.eq_nil_of_length_eq_zero hlen.symm).symm
  | cons f fs ih =>
    cases gs with
    | nil => cases hlen
    | cons g gs =>
      have hnil (l : List Proto.Field) : ∃ rest : String, ∀ f : Proto.Field,
          "\n".intercalate ((f :: l).map canonicalLine) = canonicalLine f ++ rest := by
        cases l with
        | nil => exact ⟨"", fun f => by simp⟩
        | cons k l =>
          exact ⟨"\n" ++ "\n".intercalate ((k :: l).map canonicalLine), fun f => by
            rw [List.map_cons, List.map_cons, String.intercalate_cons_cons, String.append_assoc]⟩
      obtain ⟨x, hx⟩ := hnil fs
      obtain ⟨y, hy⟩ := hnil gs
      have hfirst : f = g := by
        refine htag f List.mem_cons_self g List.mem_cons_self ?_
        rw [hx, hy] at h
        exact tag_eq_of_append (hfs f List.mem_cons_self) (hgs g List.mem_cons_self) h
      subst hfirst
      have hlen' : fs.length = gs.length := Nat.succ.inj hlen
      have hrest : "\n".intercalate (fs.map canonicalLine) =
          "\n".intercalate (gs.map canonicalLine) := by
        cases fs with
        | nil => rw [List.eq_nil_of_length_eq_zero hlen'.symm]
        | cons k fs =>
          cases gs with
          | nil => cases hlen'
          | cons k' gs =>
            rw [List.map_cons, List.map_cons, List.map_cons, List.map_cons,
              String.intercalate_cons_cons, String.intercalate_cons_cons] at h
            exact String.append_right_inj _ |>.mp h
      rw [ih hlen' (fun k hk => hfs k (List.mem_cons_of_mem _ hk))
        (fun k hk => hgs k (List.mem_cons_of_mem _ hk))
        (fun k hk k' hk' => htag k (List.mem_cons_of_mem _ hk) k' (List.mem_cons_of_mem _ hk')) hrest]

/-! ## Sorting the lines and sorting the fields -/

/-- The fields in the order of their lines. -/
def byLine (fields : List Proto.Field) : List Proto.Field :=
  fields.mergeSort fun f g => canonicalLine f ≤ canonicalLine g

theorem byLine_perm (fields : List Proto.Field) : (byLine fields).Perm fields :=
  List.mergeSort_perm ..

theorem map_byLine (fields : List Proto.Field) :
    (byLine fields).map canonicalLine =
      (fields.map canonicalLine).mergeSort fun a b => a ≤ b :=
  List.map_mergeSort fun _ _ _ _ => rfl

theorem canonicalSchemaString_eq (msg : Proto.Message) :
    canonicalSchemaString msg = "\n".intercalate ((byLine msg.fields).map canonicalLine) := by
  rw [map_byLine]
  rfl

theorem pairwise_byLine (fields : List Proto.Field) :
    (byLine fields).Pairwise fun f g => canonicalLine f ≤ canonicalLine g := by
  rw [← List.pairwise_map, map_byLine]
  exact pairwise_mergeSort_le _

/-- Where the fields come by tag, every smaller tag has the smaller line. -/
theorem aligned_of_pairwise {msg : Proto.Message} (h : msg.Ok)
    (hpairwise : (byLine msg.fields).Pairwise fun f g => f.tag < g.tag) : TagsAligned msg := by
  have hall : ∀ f ∈ byLine msg.fields, ∀ g ∈ byLine msg.fields,
      f.tag < g.tag → canonicalLine f ≤ canonicalLine g := by
    have hboth := hpairwise.and (pairwise_byLine msg.fields)
    have hordered : (byLine msg.fields).Pairwise fun f g =>
        f.tag < g.tag → canonicalLine f ≤ canonicalLine g := hboth.imp fun hab _ => hab.2
    refine fun f hf g hg => hordered.forall_of_forall_of_flip ?_ (hboth.imp ?_) hf hg
    · intro a _ hlt
      exact absurd hlt (Int.lt_irrefl _)
    · intro a b hab hlt
      exact absurd (Int.lt_trans hab.1 hlt) (Int.lt_irrefl _)
  intro f hf g hg hlt
  have hle := hall f ((byLine_perm _).mem_iff.mpr hf) g ((byLine_perm _).mem_iff.mpr hg) hlt
  rw [← canonicalLine_lt_iff (h.each f hf) (h.each g hg) hlt]
  by_contra hnot
  have heq := Std.le_antisymm hle (Std.not_lt.mp hnot)
  have htag := tag_eq_of_append (h.each f hf) (h.each g hg) (congrArg (· ++ "") heq)
  omega

/-- Where every smaller tag has the smaller line, the fields come by tag. -/
theorem pairwise_of_aligned {msg : Proto.Message} (h : msg.Ok) (haligned : TagsAligned msg) :
    (byLine msg.fields).Pairwise fun f g => f.tag < g.tag := by
  have hperm := byLine_perm msg.fields
  have hdistinct : (byLine msg.fields).Pairwise fun f g => f.tag ≠ g.tag :=
    List.pairwise_map.mp ((hperm.map Proto.Field.tag).nodup_iff.mpr h.tags)
  refine (hdistinct.and (pairwise_byLine msg.fields)).imp_of_mem ?_
  rintro f g hf hg ⟨hne, hle⟩
  rcases Int.lt_trichotomy f.tag g.tag with hlt | heq | hgt
  · exact hlt
  · exact absurd heq hne
  · have hf' := hperm.mem_iff.mp hf
    have hg' := hperm.mem_iff.mp hg
    have hline := (canonicalLine_lt_iff (h.each g hg') (h.each f hf') hgt).mpr
      (haligned g hg' f hf' hgt)
    exact absurd hle (Std.not_le.mpr hline)

theorem aligned_of_listsByTag {msg : Proto.Message} (h : msg.Ok) (hlists : ListsByTag msg) :
    TagsAligned msg := by
  obtain ⟨fields, hfields, hpairwise, heq⟩ := hlists
  rw [canonicalSchemaString_eq] at heq
  have hperm := byLine_perm msg.fields
  have hmem {f : Proto.Field} (hf : f ∈ byLine msg.fields) : f ∈ msg.fields :=
    hperm.mem_iff.mp hf
  have hsame : byLine msg.fields = fields := by
    refine fields_eq_of_joined (hperm.trans hfields.symm).length_eq
      (fun f hf => h.each f (hmem hf)) (fun g hg => h.each g (hfields.mem_iff.mp hg)) ?_ heq
    exact fun f hf g hg htag =>
      List.inj_on_of_nodup_map h.tags (hmem hf) (hfields.mem_iff.mp hg) htag
  exact aligned_of_pairwise h (hsame ▸ hpairwise)

/-- The tags 2 and 10. -/
def tenAndTwo : Proto.Message :=
  ⟨"reading", [⟨"room", "string", 2, false⟩, ⟨"temperature", "float", 10, false⟩]⟩

/-- The canonical string of a validated message need not list the fields by tag: the line of 10
comes before that of 2. -/
theorem ten_before_two : validate tenAndTwo = .ok () ∧ ¬ListsByTag tenAndTwo := by
  have hvalid : validate tenAndTwo = .ok () := by decide +kernel
  refine ⟨hvalid, fun hlists => ?_⟩
  have haligned := aligned_of_listsByTag (validate_iff.mp hvalid) hlists
  have hlt := haligned _ List.mem_cons_self _ (List.mem_cons_of_mem _ List.mem_cons_self)
    (by decide)
  exact absurd hlt (by decide)

/-- The canonical schema string of a validated message lists the fields by tag if and only if
every tag that is smaller than another is smaller than its leading digits. -/
theorem canonical_by_tag_iff {msg : Proto.Message} (h : validate msg = .ok ()) :
    ListsByTag msg ↔ TagsAligned msg := by
  rw [validate_iff] at h
  constructor
  · exact aligned_of_listsByTag h
  · intro haligned
    exact ⟨byLine msg.fields, byLine_perm msg.fields, pairwise_of_aligned h haligned,
      canonicalSchemaString_eq msg⟩

/-- `canonical_by_tag_iff` for the tags 5 and 2. -/
theorem canonical_by_tag_iff_single_digits :
    ListsByTag ⟨"x", [⟨"alpha", "int32", 5, false⟩, ⟨"beta", "bool", 2, false⟩]⟩ := by
  refine (canonical_by_tag_iff (by decide +kernel)).mpr ?_
  unfold TagsAligned
  decide

end Mpubsub.Theorems
