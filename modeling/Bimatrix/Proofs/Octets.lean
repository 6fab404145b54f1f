import Mathlib.Tactic

/-! # Texts as octets

A text comes back from its UTF-8 octets.  Each ASCII character is one octet.
-/
namespace Bimatrix

theorem fromUTF8?_toUTF8 (s : String) : String.fromUTF8? s.toUTF8 = some s := by
  rw [String.fromUTF8?, String.toUTF8, dif_pos s.isValidUTF8]
  rfl

theorem toList_loop_eq (octets : ByteArray) (i : ℕ) (done : List UInt8) :
    ByteArray.toList.loop octets i done = done.reverse ++ octets.data.toList.drop i := by
  fun_induction ByteArray.toList.loop octets i done with
  | case1 i done h ih =>
    have hi : i < octets.data.toList.length := by simpa using h
    rw [ih, List.drop_eq_getElem_cons hi]
    simp [ByteArray.get!, h]
  | case2 i done h =>
    rw [List.drop_eq_nil_of_le (by simpa using Nat.le_of_not_lt h), List.append_nil]

theorem toList_eq_toList_data (octets : ByteArray) : octets.toList = octets.data.toList := by
  rw [ByteArray.toList, toList_loop_eq, List.reverse_nil, List.nil_append, List.drop_zero]

def IsAscii (cs : List Char) : Prop := ∀ c ∈ cs, c.toNat < 128

variable {cs : List Char}

theorem IsAscii.flatMap_utf8EncodeChar (h : IsAscii cs) :
    cs.flatMap String.utf8EncodeChar = cs.map Char.toUInt8 := by
  rw [List.map_eq_flatMap]
  refine List.flatMap_congr fun c hc => ?_
  have hsize : c.utf8Size = 1 := by
    rw [Char.utf8Size_eq_one_iff, UInt32.le_iff_toNat_le]
    exact Nat.le_of_lt_succ (h c hc)
  exact String.utf8EncodeChar_eq_singleton hsize

theorem IsAscii.toList_toUTF8 (h : IsAscii cs) :
    (String.ofList cs).toUTF8.toList = cs.map Char.toUInt8 := by
  rw [toList_eq_toList_data, ← h.flatMap_utf8EncodeChar]
  exact List.toList_data_toByteArray

theorem IsAscii.fromUTF8?_map_toUInt8 (h : IsAscii cs) :
    String.fromUTF8? ⟨(cs.map Char.toUInt8).toArray⟩ = some (String.ofList cs) := by
  have hoctets : ⟨(cs.map Char.toUInt8).toArray⟩ = (String.ofList cs).toUTF8 := by
    rw [← h.toList_toUTF8, toList_eq_toList_data]
  rw [hoctets, fromUTF8?_toUTF8]

end Bimatrix
