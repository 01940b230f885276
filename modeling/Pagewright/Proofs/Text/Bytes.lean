import Mathlib.Data.String.Basic

/-! Texts are in the order of their bytes. Of two characters the one with the smaller number has the smaller
bytes, whatever follows. -/

namespace Pagewright

/-- The bytes of a text. -/
def bytes (text : String) : List UInt8 := text.toUTF8.data.toList

theorem bytes_eq_flatMap (text : String) : bytes text = text.toList.flatMap String.utf8EncodeChar := by
  rw [bytes, String.toUTF8, ← String.utf8Encode_toList, List.utf8Encode, List.data_toByteArray]

theorem append_lt_append {α : Type} [LT α] {front back : List α} (less : front < back)
    (alike : front.length = back.length) (rest others : List α) : front ++ rest < back ++ others := by
  induction front generalizing back with
  | nil =>
    cases List.length_eq_zero_iff.mp alike.symm
    cases less
  | cons first front ih =>
    cases back with
    | nil => cases alike
    | cons second back =>
      rw [List.cons_lt_cons_iff] at less
      rw [List.cons_append, List.cons_append, List.cons_lt_cons_iff]
      exact less.imp_right fun ⟨same, further⟩ => ⟨same, ih further (by simpa using alike)⟩

/-- Of two characters that take as many bytes, these decide in their places; if one takes more, its first byte is
the larger. -/
theorem utf8EncodeChar_append_lt {one other : Char} (less : one < other) (rest others : List UInt8) :
    String.utf8EncodeChar one ++ rest < String.utf8EncodeChar other ++ others := by
  have less : one.val.toNat < other.val.toNat := UInt32.lt_iff_toNat_lt.mp less
  have bound : other.val.toNat < 1114112 := by
    rcases other.valid with below | ⟨_, below⟩
    · exact Nat.lt_trans below (by decide)
    · exact below
  unfold String.utf8EncodeChar
  generalize one.val.toNat = first at less
  generalize other.val.toNat = second at less bound
  have lead {byte another : Nat} {behind after : List UInt8} (smaller : byte < another) (small : another < 256) :
      UInt8.ofNat byte :: behind < UInt8.ofNat another :: after := by
    rw [List.cons_lt_cons_iff, UInt8.lt_iff_toNat_lt, UInt8.toNat_ofNat', UInt8.toNat_ofNat']
    omega
  have twice (code : Nat) : code / 4096 = code / 64 / 64 := by omega
  have thrice (code : Nat) : code / 262144 = code / 64 / 64 / 64 := by omega
  simp only [twice, thrice]
  split_ifs
  all_goals first
    | exact absurd less (by omega)
    | exact lead (by omega) (by omega)
    | refine append_lt_append ?_ (by rfl) rest others
      simp only [List.cons_lt_cons_iff, UInt8.lt_iff_toNat_lt, ← UInt8.toNat_inj, UInt8.toNat_ofNat',
        List.not_lt_nil, and_false, or_false]
      omega

theorem flatMap_utf8EncodeChar_lt {one other : List Char} (less : one < other) :
    one.flatMap String.utf8EncodeChar < other.flatMap String.utf8EncodeChar := by
  induction one generalizing other with
  | nil =>
    cases other with
    | nil => cases less
    | cons c rest =>
      obtain ⟨byte, behind, encoded⟩ := List.exists_cons_of_ne_nil (String.utf8EncodeChar_ne_nil (c := c))
      rw [List.flatMap_cons, encoded]
      exact List.nil_lt_cons ..
  | cons c one ih =>
    cases other with
    | nil => cases less
    | cons d other =>
      rw [List.flatMap_cons, List.flatMap_cons]
      rcases List.cons_lt_cons_iff.mp less with smaller | ⟨rfl, further⟩
      · exact utf8EncodeChar_append_lt smaller _ _
      · exact List.append_left_lt (ih further)

theorem bytes_lt_bytes {one other : String} (less : one < other) : bytes one < bytes other := by
  rw [bytes_eq_flatMap, bytes_eq_flatMap]
  exact flatMap_utf8EncodeChar_lt (String.lt_iff_toList_lt.mp less)

end Pagewright
