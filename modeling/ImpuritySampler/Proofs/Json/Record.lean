import ImpuritySampler.Proofs.Json.Float
import ImpuritySampler.Proofs.Json.Layout

/-!
# Decoding what was encoded

A value that is written for something is kept if it is decoded as what it was written for. Numbers,
lists, options, records and tables are kept if their parts are.
-/

set_option autoImplicit false

namespace ImpuritySampler.Json

variable {β : Type} {depth : ℕ}

/-- The value `v` stands for `b`: it obeys the grammar, has no more than `depth` arrays and objects
inside one another, and is decoded as `b`. -/
structure Kept (depth : ℕ) (decode : Node → Decoded β) (v : Value) (b : β) : Prop where
  grammatical : v.Grammatical
  readable : ∀ limit, depth ≤ limit → (Node.ofValue v).survey limit = .ok ()
  decoded : decode (Node.ofValue v) = .ok b

theorem Kept.mono {decode : Node → Decoded β} {v : Value} {b : β} {depth' : ℕ}
    (h : Kept depth decode v b) (hle : depth ≤ depth') : Kept depth' decode v b :=
  ⟨h.grammatical, fun limit hlimit => h.readable limit (hle.trans hlimit), h.decoded⟩

section Scalars

theorem kept_float {x : Float} (h : x.isFinite = true) (hx : Number.Exact x) :
    Kept 0 Node.toFloat (.ofFloat x) x := by
  obtain ⟨n, hn, hwritten⟩ := Number.exists_ofFloat? h
  have hread := hx n hn
  rw [Value.ofFloat, hn]
  refine ⟨hwritten, fun limit _ => ?_, ?_⟩
  · rw [Node.ofValue, Node.survey, hread]
    rfl
  · rw [Node.ofValue, Node.toFloat, hread]
    rfl

theorem kept_nat {n : ℕ} (h : n < wordLimit) : Kept 0 Node.toNat (.ofNat n) n := by
  refine ⟨Number.written_ofNat n, fun limit _ => ?_, ?_⟩
  · rw [Value.ofNat, Node.ofValue, Node.survey, if_pos (Number.toFloat?_ofNat h)]
  · rw [Value.ofNat, Node.ofValue, Node.toNat, Number.toNat?_ofNat h]
    rfl

theorem kept_bool (b : Bool) : Kept 0 Node.toBool (.bool b) b :=
  ⟨trivial, fun _ _ => rfl, rfl⟩

end Scalars

section Lists

variable {decode : Node → Decoded β} {encode : β → Value} {l : List β}

theorem kept_items (h : ∀ b ∈ l, Kept depth decode (encode b) b) :
    Value.GrammaticalItems (l.map encode) ∧
      (∀ limit, depth ≤ limit → Node.surveyItems limit (Node.ofItems (l.map encode)) = .ok ()) ∧
      (Node.ofItems (l.map encode)).mapM decode = .ok l := by
  induction l with
  | nil => exact ⟨trivial, fun _ _ => rfl, rfl⟩
  | cons b l ih =>
    have hb := h b List.mem_cons_self
    obtain ⟨hgrammatical, hreadable, hdecoded⟩ := ih fun c hc => h c (List.mem_cons_of_mem b hc)
    refine ⟨⟨hb.grammatical, hgrammatical⟩, fun limit hlimit => ?_, ?_⟩
    · rw [List.map_cons, Node.ofItems, Node.surveyItems, hb.readable limit hlimit,
        hreadable limit hlimit]
      rfl
    · rw [List.map_cons, Node.ofItems, List.mapM_cons, hb.decoded, hdecoded]
      rfl

theorem length_ofItems (items : List Value) : (Node.ofItems items).length = items.length := by
  induction items with
  | nil => rfl
  | cons v items ih => rw [Node.ofItems, List.length_cons, List.length_cons, ih]

theorem readable_array {items : List Value}
    (h : ∀ limit, depth ≤ limit → Node.surveyItems limit (Node.ofItems items) = .ok ()) :
    ∀ limit, depth + 1 ≤ limit → (Node.ofValue (.array items)).survey limit = .ok () := by
  intro limit hlimit
  obtain ⟨limit, rfl⟩ := Nat.exists_eq_add_of_le' (Nat.le_of_add_left_le hlimit)
  rw [Node.ofValue, Node.survey, h limit (by omega)]
  rfl

theorem kept_list (h : ∀ b ∈ l, Kept depth decode (encode b) b) :
    Kept (depth + 1) (Node.toList decode) (.ofList encode l) l := by
  obtain ⟨hgrammatical, hreadable, hdecoded⟩ := kept_items h
  refine ⟨hgrammatical, readable_array hreadable, ?_⟩
  rw [Value.ofList, Node.ofValue, Node.toList, hdecoded]
  rfl

theorem kept_exactly (h : ∀ b ∈ l, Kept depth decode (encode b) b) :
    Kept (depth + 1) (Node.toExactly l.length decode) (.ofList encode l) l := by
  obtain ⟨hgrammatical, hreadable, hdecoded⟩ := kept_items h
  have hlength : (Node.ofItems (l.map encode)).length = l.length := by
    rw [length_ofItems, List.length_map]
  refine ⟨hgrammatical, readable_array hreadable, ?_⟩
  rw [Value.ofList, Node.ofValue, Node.toExactly, List.take_of_length_le hlength.le, hdecoded,
    hlength]
  simp only [lt_self_iff_false, if_false]
  rfl

/-- Nothing is written as null, which is not decoded as anything else. -/
theorem kept_option {o : Option β} (decode : Node → Decoded β) (hnull : ∀ b, decode .null ≠ .ok b)
    (h : ∀ b ∈ o, Kept depth decode (encode b) b) :
    Kept depth (Node.toOption decode) (.ofOption encode o) o := by
  cases o with
  | none => exact ⟨trivial, fun _ _ => rfl, rfl⟩
  | some b =>
    have hb := h b rfl
    refine ⟨hb.grammatical, hb.readable, ?_⟩
    have hdecoded : decode (Node.ofValue (encode b)) = .ok b := hb.decoded
    rw [Value.ofOption, Node.toOption]
    · rw [hdecoded]
      rfl
    · intro hz
      rw [hz] at hdecoded
      exact hnull b hdecoded

end Lists

section Records

variable {σ : Type}

/-- Members for the fields of a record, in order and each with a value that stands for what the
field puts into the record. -/
inductive Filled (depth : ℕ) : List (Slot σ) → List (String × Value) → σ → σ → Prop
  | nil {s : σ} : Filled depth [] [] s s
  | cons {γ : Type} {name : String} {decode : Node → Decoded γ} {put : γ → σ → σ} {v : Value}
      {c : γ} {fields : List (Slot σ)} {members : List (String × Value)} {s t : σ}
      (first : Kept depth decode v c) (others : Filled depth fields members (put c s) t) :
      Filled depth (field name decode put :: fields) ((name, v) :: members) s t

variable {fields : List (Slot σ)} {members : List (String × Value)} {s t : σ}

theorem readMembers_known {schema : Schema σ β} {f : Slot σ} {key : String} {n : Node}
    {rest : List (Decoded String × Node)} {seen : List String}
    (hfind : schema.fields.find? (fun g => g.name == key) = some f)
    (hnew : ¬(schema.closed = false ∧ key ∈ seen)) (hput : f.put n s = .ok t) :
    schema.readMembers ((.ok key, n) :: rest) seen s =
      schema.readMembers rest (key :: seen) t := by
  simp only [Schema.readMembers, bind, Except.bind, hfind, if_neg hnew, hput]

namespace Filled

theorem mono {depth' : ℕ} (h : Filled depth fields members s t) (hle : depth ≤ depth') :
    Filled depth' fields members s t := by
  induction h with
  | nil => exact .nil
  | cons first others ih => exact .cons (first.mono hle) ih

theorem grammatical (h : Filled depth fields members s t) : Value.GrammaticalMembers members := by
  induction h with
  | nil => trivial
  | cons first others ih => exact ⟨first.grammatical, ih⟩

theorem readable (h : Filled depth fields members s t) (limit : ℕ) (hlimit : depth ≤ limit) :
    Node.surveyMembers limit (Node.ofMembers members) = .ok () := by
  induction h with
  | nil => rfl
  | cons first others ih =>
    rw [Node.ofMembers, Node.surveyMembers, first.readable limit hlimit, ih]
    rfl

theorem readMembers {schema : Schema σ β} (h : Filled depth fields members s t)
    (hfind : ∀ f ∈ fields, schema.fields.find? (fun g => g.name == f.name) = some f)
    (hnames : (fields.map Slot.name).Nodup) (seen : List String)
    (hseen : ∀ f ∈ fields, f.name ∉ seen) :
    schema.readMembers (Node.ofMembers members) seen s = .ok t := by
  induction h generalizing seen with
  | nil => rfl
  | @cons γ name decode put v c fields members s t first others ih =>
    have hname : schema.fields.find? (fun g => g.name == name) = some (field name decode put) :=
      hfind _ List.mem_cons_self
    have hnew : ¬(schema.closed = false ∧ name ∈ seen) :=
      fun hold => hseen _ List.mem_cons_self hold.2
    have hfirst : (field name decode put).put (Node.ofValue v) s = .ok (put c s) := by
      show (do pure (put (← decode (Node.ofValue v)) s)) = _
      rw [first.decoded]
      rfl
    rw [List.map_cons, List.nodup_cons] at hnames
    have hlater : ∀ f ∈ fields, f.name ∉ name :: seen := by
      intro f hf
      have hmem : f.name ∈ fields.map Slot.name := List.mem_map_of_mem hf
      rw [List.mem_cons, not_or]
      exact ⟨fun hsame => hnames.1 (hsame ▸ hmem), hseen f (List.mem_cons_of_mem _ hf)⟩
    have hothers := ih (fun f hf => hfind f (List.mem_cons_of_mem _ hf)) hnames.2 _ hlater
    rw [Node.ofMembers, readMembers_known hname hnew hfirst]
    exact hothers

end Filled

theorem find?_name (hnames : (fields.map Slot.name).Nodup) {f : Slot σ} (hf : f ∈ fields) :
    fields.find? (fun g => g.name == f.name) = some f := by
  induction fields with
  | nil => cases hf
  | cons g fields ih =>
    rw [List.map_cons, List.nodup_cons] at hnames
    rcases List.mem_cons.mp hf with rfl | hf
    · exact List.find?_cons_of_pos (beq_self_eq_true _)
    · rw [List.find?_cons_of_neg]
      · exact ih hnames.2 hf
      · intro hg
        rw [eq_of_beq hg] at hnames
        exact hnames.1 (List.mem_map_of_mem hf)

theorem kept_record {schema : Schema σ β} {b : β} (hnames : (schema.fields.map Slot.name).Nodup)
    (h : Filled depth schema.fields members schema.start s) (hfinish : schema.finish s = .ok b) :
    Kept (depth + 1) schema.read (.object members) b := by
  refine ⟨h.grammatical, fun limit hlimit => ?_, ?_⟩
  · obtain ⟨limit, rfl⟩ := Nat.exists_eq_add_of_le' (Nat.le_of_add_left_le hlimit)
    rw [Node.ofValue, Node.survey, h.readable limit (by omega)]
    rfl
  · have hread := h.readMembers (fun f hf => find?_name hnames hf) hnames [] fun f hf => by simp
    rw [Node.ofValue, Schema.read, hread]
    exact hfinish

end Records

section Tables

theorem lt_wordLimit_of_addressable {e : Extent} (h : e.Addressable) : ∀ n ∈ e, n < wordLimit := by
  intro n hn
  rcases Nat.eq_zero_or_pos n with rfl | hpos
  · decide
  have hmem : n ∈ e.filter (· ≠ 0) := List.mem_filter.mpr ⟨hn, decide_eq_true hpos.ne'⟩
  have hsize : Extent.size (e.filter (· ≠ 0)) = (e.filter (· ≠ 0)).prod := List.prod_eq_foldl.symm
  have hprod : 0 < (e.filter (· ≠ 0)).prod :=
    List.prod_pos fun m hm => Nat.pos_of_ne_zero (of_decide_eq_true (List.mem_filter.mp hm).2)
  calc n ≤ (e.filter (· ≠ 0)).prod := Nat.le_of_dvd hprod (List.dvd_prod hmem)
    _ = Extent.size (e.filter (· ≠ 0)) := hsize.symm
    _ < Extent.placeLimit := h
    _ < wordLimit := by decide

theorem kept_version : Kept 0 toVersion (.ofNat 1) () := by
  have hone := kept_nat (n := 1) (by decide)
  refine ⟨hone.grammatical, hone.readable, ?_⟩
  rw [toVersion, hone.decoded]
  rfl

theorem kept_table {build : List ℕ → Array Float → Option β} {dims : List ℕ} {data : Array Float}
    {b : β} (hdims : Extent.Addressable dims)
    (hdata : ∀ x ∈ data.toList, Kept 0 Node.toFloat (.ofFloat x) x)
    (hbuild : build dims data = some b) :
    Kept 2 (tableSchema dims.length build).read (.ofTable dims data) b := by
  have hlengths := kept_exactly fun n hn => kept_nat (lt_wordLimit_of_addressable hdims n hn)
  refine kept_record (show ["v", "dim", "data"].Nodup by decide)
    (.cons (kept_version.mono (Nat.zero_le 1)) (.cons hlengths (.cons (kept_list hdata) .nil))) ?_
  show (if Extent.Addressable dims then present (build dims data.toList.toArray) else malformed) = _
  rw [if_pos hdims, Array.toArray_toList, hbuild]
  rfl

theorem kept_grid {g : Grid Float} (hdims : Extent.Addressable [g.rows, g.cols])
    (hdata : ∀ x ∈ g.data.toList, Kept 0 Node.toFloat (.ofFloat x) x) :
    Kept 2 toGrid (.ofTable [g.rows, g.cols] g.data) g :=
  kept_table hdims hdata (dif_pos g.size_eq)

theorem kept_stack {s : Stack Float} (hdims : Extent.Addressable [s.layers, s.rows, s.cols])
    (hdata : ∀ x ∈ s.data.toList, Kept 0 Node.toFloat (.ofFloat x) x) :
    Kept 2 toStack (.ofTable [s.layers, s.rows, s.cols] s.data) s :=
  kept_table hdims hdata (dif_pos s.size_eq)

end Tables

end ImpuritySampler.Json
