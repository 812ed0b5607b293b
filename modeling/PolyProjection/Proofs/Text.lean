import Mathlib

/-! The order of texts. Texts are compared character by character. The bytes of a character are before those of a later
one, whatever follows either, so that a comparison of the bytes comes to the same. -/

namespace PolyProjection

/-- What two lists begin with in common does not decide their order. -/
theorem append_lt_append_iff {α : Type} [LT α] [Std.Irrefl (α := α) (· < ·)] {s t t' : List α} :
    s ++ t < s ++ t' ↔ t < t' := by
  induction s with
  | nil => rfl
  | cons a s ih => simp only [List.cons_append, List.cons_lt_cons_iff, Std.Irrefl.irrefl, true_and, false_or, ih]

namespace Text

/-- The bytes in which a text is written. -/
def bytes (s : String) : List UInt8 :=
  s.toUTF8.data.toList

theorem bytes_eq (s : String) : bytes s = s.toList.flatMap String.utf8EncodeChar := by
  have hs : s.toUTF8 = s.toList.utf8Encode := by
    conv_lhs => rw [← String.ofList_toList (s := s)]
    exact String.toByteArray_ofList
  rw [bytes, hs, List.utf8Encode, List.data_toByteArray]

theorem ofNat_lt_ofNat_iff {m n : ℕ} (hm : m < 256) (hn : n < 256) : UInt8.ofNat m < UInt8.ofNat n ↔ m < n := by
  rw [UInt8.lt_iff_toNat_lt, UInt8.toNat_ofNat_of_lt' hm, UInt8.toNat_ofNat_of_lt' hn]

theorem ofNat_eq_ofNat_iff {m n : ℕ} (hm : m < 256) (hn : n < 256) : UInt8.ofNat m = UInt8.ofNat n ↔ m = n := by
  rw [← UInt8.toNat_inj, UInt8.toNat_ofNat_of_lt' hm, UInt8.toNat_ofNat_of_lt' hn]

/-- The bytes of a character are before those of a later one, whatever follows. -/
theorem utf8EncodeChar_append_lt {c d : Char} (h : c < d) (bs ds : List UInt8) :
    String.utf8EncodeChar c ++ bs < String.utf8EncodeChar d ++ ds := by
  have hcd : c.val.toNat < d.val.toNat := h
  have hd : d.val.toNat < 2097152 := by
    rcases d.valid with hd | ⟨-, hd⟩
    · exact lt_trans hd (by decide)
    · exact lt_trans hd (by decide)
  -- the digits to the base 64 decide, the highest one first
  have hdigits : ∀ v < 2097152, v = 262144 * (v / 262144 % 8) + 4096 * (v / 4096 % 64) + 64 * (v / 64 % 64) + v % 64 :=
    fun v hv => by omega
  have hv := hdigits c.val.toNat (hcd.trans hd)
  have hw := hdigits d.val.toNat hd
  simp only [String.utf8EncodeChar]
  generalize c.val.toNat = v at *
  generalize d.val.toNat = w at *
  split_ifs <;> first
    | omega
    | (simp (disch := omega) only [List.cons_append, List.nil_append, List.cons_lt_cons_iff, ofNat_lt_ofNat_iff,
        ofNat_eq_ofNat_iff]
       omega)

theorem flatMap_utf8EncodeChar_lt {s t : List Char} (h : s < t) :
    s.flatMap String.utf8EncodeChar < t.flatMap String.utf8EncodeChar := by
  induction s generalizing t with
  | nil =>
      cases t with
      | nil => exact absurd h (List.lt_irrefl _)
      | cons d t =>
          obtain ⟨b, bs, hbs⟩ := List.exists_cons_of_ne_nil (String.utf8EncodeChar_ne_nil (c := d))
          rw [List.flatMap_nil, List.flatMap_cons, hbs]
          exact List.nil_lt_cons _ _
  | cons c s ih =>
      cases t with
      | nil => exact absurd h (List.not_lt_nil _)
      | cons d t =>
          rw [List.flatMap_cons, List.flatMap_cons]
          obtain hlt | ⟨rfl, hlt⟩ := List.cons_lt_cons_iff.1 h
          · exact utf8EncodeChar_append_lt hlt _ _
          · exact append_lt_append_iff.2 (ih hlt)

/-- The order of texts is that of their bytes. -/
theorem bytes_lt_bytes {s t : String} (h : s < t) : bytes s < bytes t := by
  rw [bytes_eq, bytes_eq]
  exact flatMap_utf8EncodeChar_lt h

/-- The order of lists of texts is that of the lists of their bytes. -/
theorem map_bytes_lt_map_bytes {p q : List String} (h : p < q) : p.map bytes < q.map bytes := by
  induction p generalizing q with
  | nil =>
      cases q with
      | nil => exact absurd h (List.lt_irrefl _)
      | cons t q => exact List.nil_lt_cons _ _
  | cons s p ih =>
      cases q with
      | nil => exact absurd h (List.not_lt_nil _)
      | cons t q =>
          rw [List.map_cons, List.map_cons, List.cons_lt_cons_iff]
          exact (List.cons_lt_cons_iff.1 h).imp bytes_lt_bytes fun ⟨hst, hpq⟩ => ⟨congrArg bytes hst, ih hpq⟩

end Text

end PolyProjection
