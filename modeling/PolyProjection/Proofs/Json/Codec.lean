import PolyProjection.Json.Codec
import PolyProjection.Proofs.Json.Spelling

/-! Codecs that give back what they wrote. A value that is kept is read from its text wherever that stands, so that
arrays and records of kept values are kept. -/

namespace PolyProjection.Json

variable {α β σ : Type}

/-- The value is read back from its text, which may be a part of a larger one. -/
def Codec.Keeps (c : Codec α) (x : α) : Prop :=
  ∃ v, Spells (c.write x).toList v ∧ c.read v = .ok x

theorem bind_eq_ok_iff {x : Except Flaw α} {f : α → Except Flaw β} {b : β} :
    x >>= f = .ok b ↔ ∃ a, x = .ok a ∧ f a = .ok b := by
  cases x with
  | error e => simp [bind, Except.bind]
  | ok a => simp [bind, Except.bind]

theorem ok_bind (a : α) (f : α → Except Flaw β) : (Except.ok a : Except Flaw α) >>= f = f a :=
  rfl

/-- Only a number is read as one. -/
theorem exists_number_of_float? {v : Json} {x : Float} (h : float? v = .ok x) : ∃ d whole, v = .number d whole := by
  cases v
  case number d whole => exact ⟨d, whole, rfl⟩
  all_goals simp [float?, unexpected] at h

/-- What a text gives is the value of its tree, with nothing but blanks after it. -/
theorem decode_eq_ok {d : Decoder α} {text : String} {x : α} (h : decode d text = .ok x) :
    ∃ v after, valueWithin (text.toList.length + 1) text.toList = (v, some after) ∧ skipBlanks after = [] ∧
      d v = .ok x := by
  rw [decode] at h
  cases htree : Json.ofText text with
  | mk v after =>
      rw [htree] at h
      obtain ⟨y, hread, hend⟩ := bind_eq_ok_iff.1 h
      split at hend
      · rename_i hafter
        obtain ⟨after, rfl, hblanks⟩ := Option.map_eq_some_iff.1 hafter
        have hy : y = x := Except.ok.inj hend
        exact ⟨v, after, htree, hblanks, hy ▸ hread⟩
      · simp at hend

namespace Codec

variable {c : Codec α}

/-- A kept value is read from a text of its own. -/
theorem Keeps.ofText {x : α} (h : c.Keeps x) : c.ofText (c.write x) = .ok x := by
  obtain ⟨v, hspells, hread⟩ := h
  obtain ⟨after, hvalue, hafter⟩ := hspells ((c.write x).toList.length + 1) [] (Nat.le_succ _) ends_nil
  rw [List.append_nil] at hvalue
  have htree : Json.ofText (c.write x) = (v, some after) := hvalue
  have hblanks : after.dropWhile isBlank = [] := hafter
  simp only [Codec.ofText, decode, htree, hread, ok_bind, Option.map_some, skipBlanks, hblanks]
  rfl

/-- A number that is read from a text of its own is kept. -/
theorem keeps_float {x : Float} (h : float.ofText (float.write x) = .ok x) : float.Keeps x := by
  obtain ⟨v, after, hvalue, hafter, hread⟩ := decode_eq_ok h
  obtain ⟨d, whole, rfl⟩ := exists_number_of_float? hread
  exact ⟨.number d whole, spells_of_number hvalue hafter, hread⟩

theorem keeps_bool (b : Bool) : bool.Keeps b :=
  ⟨.bool b, spells_ofBool b, rfl⟩

theorem keeps_word32 {n : Nat} (h : n < UInt32.size) : word32.Keeps n :=
  ⟨.number ⟨false, n, 0⟩ true, spells_ofNat n, by simp [word32, word32?, natBelow?, h]⟩

theorem keeps_word64 {n : Nat} (h : n < UInt64.size) : word64.Keeps n :=
  ⟨.number ⟨false, n, 0⟩ true, spells_ofNat n, by simp [word64, word64?, natBelow?, h]⟩

/-- A value is kept along with the one that it is written as, if it is that one's meaning. -/
theorem Keeps.via {decode : α → Option β} {encode : β → α} {y : β} (h : c.Keeps (encode y))
    (hy : decode (encode y) = some y) : (c.via decode encode).Keeps y := by
  obtain ⟨v, hspells, hread⟩ := h
  refine ⟨v, hspells, ?_⟩
  simp only [Codec.via, hread, ok_bind, hy]
  rfl

/-- The items of an array are read one after the other. -/
theorem foldlM_push {xs : List α} {vs : List Json} (h : List.Forall₂ (fun x v => c.read v = .ok x) xs vs)
    (done : Array α) :
    vs.foldlM (fun ys v => return ys.push (← c.read v)) done = (.ok (done ++ xs.toArray) : Except Flaw (Array α)) := by
  induction h generalizing done with
  | nil => simp [pure, Except.pure]
  | cons hread _ ih =>
      rw [List.foldlM_cons, hread, ok_bind, pure_bind, ih]
      simp

theorem exists_values {xs : List α} (h : ∀ x ∈ xs, c.Keeps x) :
    ∃ vs, List.Forall₂ Spells (xs.map fun x => (c.write x).toList) vs ∧
      List.Forall₂ (fun x v => c.read v = .ok x) xs vs := by
  induction xs with
  | nil => exact ⟨[], .nil, .nil⟩
  | cons x xs ih =>
      obtain ⟨v, hspells, hread⟩ := h x List.mem_cons_self
      obtain ⟨vs, hall, hreads⟩ := ih fun y hy => h y (List.mem_cons_of_mem x hy)
      exact ⟨v :: vs, .cons hspells hall, .cons hread hreads⟩

theorem toList_ofArray (xs : Array α) (item : α → String) :
    (ofArray item xs).toList = '[' :: ([','].intercalate (xs.toList.map fun x => (item x).toList) ++ [']']) := by
  simp [ofArray, String.toList_intercalate, Function.comp_def]

theorem Keeps.array {xs : Array α} (h : ∀ x ∈ xs, c.Keeps x) : (Codec.array c).Keeps xs := by
  obtain ⟨vs, hspells, hreads⟩ := exists_values fun x hx => h x (Array.mem_toList_iff.1 hx)
  refine ⟨.array vs none, ?_, ?_⟩
  · have hwrite : (Codec.array c).write xs = ofArray c.write xs := rfl
    rw [hwrite, toList_ofArray]
    exact spells_array hspells
  · simp only [Codec.array, arrayOf?, foldlM_push hreads, ok_bind, closed, Array.empty_append]
    rfl

end Codec

/-! ### Records -/

variable {s : σ} {fields : List (RecordField σ)} {puts : List (σ → σ)}

/-- What the field holds in the record `s` is written so that reading it changes a record by `put`. -/
def RecordField.Keeps (f : RecordField σ) (s : σ) (put : σ → σ) : Prop :=
  ∃ v, Spells (f.write s).toList v ∧ ∀ t, f.read t v = .ok (put t)

theorem keeps_field {name : String} {c : Codec α} {get : σ → α} {set : α → σ → σ} (h : c.Keeps (get s)) :
    (field name c get set).Keeps s (set (get s)) := by
  obtain ⟨v, hspells, hread⟩ := h
  refine ⟨v, hspells, fun t => ?_⟩
  simp only [field, hread, ok_bind]
  rfl

/-- A member whose name is that of the field `f` is read as that field. -/
theorem readMember_field {f : RecordField σ} {put : σ → σ} {v : Json} {t : σ} {seen : List String}
    (hread : f.read t v = .ok (put t)) (hfind : fields.find? (·.name == f.name) = some f)
    (hseen : f.name ∉ seen) :
    readMember fields (seen, t) (some f.name, v) = .ok (f.name :: seen, put t) := by
  have hcontains : seen.contains f.name = false := by simpa using hseen
  simp only [readMember, hfind, hcontains, hread, ok_bind]
  rfl

theorem find?_name {f : RecordField σ} {before later : List (RecordField σ)}
    (hnames : ((before ++ f :: later).map (·.name)).Nodup) :
    (before ++ f :: later).find? (·.name == f.name) = some f := by
  have hbefore : before.find? (·.name == f.name) = none := by
    rw [List.find?_eq_none]
    intro g hg heq
    rw [List.map_append, List.map_cons] at hnames
    have hdisjoint := List.disjoint_of_nodup_append hnames
    apply hdisjoint (List.mem_map_of_mem hg)
    rw [beq_iff_eq.1 heq]
    exact List.mem_cons_self
  rw [List.find?_append, hbefore]
  simp

/-- The members of a record are read one after the other, each as the field of its name. -/
theorem exists_members {later : List (RecordField σ)} (h : List.Forall₂ (fun f put => f.Keeps s put) later puts)
    (hplain : ∀ f ∈ later, IsPlain f.name) :
    ∃ reads, List.Forall₂ SpellsMember (later.map fun f => (f.name, (f.write s).toList)) reads ∧
      ∀ before t, ((before ++ later).map (·.name)).Nodup →
        reads.foldlM (readMember (before ++ later)) ((before.map (·.name)).reverse, t) =
          .ok (((before ++ later).map (·.name)).reverse, puts.foldl (fun t put => put t) t) := by
  induction h with
  | nil =>
      refine ⟨[], .nil, fun before t _ => ?_⟩
      rw [List.append_nil]
      rfl
  | @cons f put later puts hf _ ih =>
      obtain ⟨v, hspells, hread⟩ := hf
      obtain ⟨reads, hall, hfold⟩ := ih fun g hg => hplain g (List.mem_cons_of_mem f hg)
      have hname := hplain f List.mem_cons_self
      refine ⟨(some f.name, v) :: reads, .cons ⟨hname, rfl, hspells⟩ hall, fun before t hnames => ?_⟩
      have hseen : f.name ∉ (before.map (·.name)).reverse := by
        intro hmem
        rw [List.map_append, List.map_cons] at hnames
        exact List.disjoint_of_nodup_append hnames (List.mem_reverse.1 hmem) List.mem_cons_self
      have hnext := hfold (before ++ [f]) (put t)
      simp only [List.append_assoc, List.singleton_append] at hnext
      rw [List.foldlM_cons, readMember_field (hread t) (find?_name hnames) hseen, ok_bind, List.foldl_cons,
        ← hnext hnames]
      simp

theorem toList_ofFields (members : List (String × String)) :
    (ofFields members).toList =
      '\x7b' :: ([','].intercalate ((members.map fun m => (m.1, m.2.toList)).map memberText) ++ ['\x7d']) := by
  simp [ofFields, ofWord, memberText, String.toList_intercalate, Function.comp_def]

/-- A record is kept if each of its fields is, and these make it up. -/
theorem Codec.keeps_record {optional : Bool} {start : σ} (h : List.Forall₂ (fun f put => f.Keeps s put) fields puts)
    (hplain : ∀ f ∈ fields, IsPlain f.name) (hnames : (fields.map (·.name)).Nodup)
    (hs : puts.foldl (fun t put => put t) start = s) : (Codec.record fields optional start).Keeps s := by
  obtain ⟨reads, hspells, hfold⟩ := exists_members h hplain
  refine ⟨.object reads none, ?_, ?_⟩
  · have hwrite : (Codec.record fields optional start).write s = ofFields (fields.map fun f => (f.name, f.write s)) :=
      rfl
    have hmembers : (fields.map fun f => (f.name, f.write s)).map (fun m => (m.1, m.2.toList)) =
        fields.map fun f => (f.name, (f.write s).toList) := List.map_map
    rw [hwrite, toList_ofFields, hmembers]
    exact spells_object hspells
  · have hread := hfold [] start hnames
    rw [hs] at hread
    have hall : (optional || (fields.map (·.name)).reverse.length == fields.length) = true := by simp
    simp only [List.nil_append, List.map_nil, List.reverse_nil] at hread
    simp only [Codec.record, record?, hread, ok_bind, closed, hall, if_true]
    rfl

end PolyProjection.Json
