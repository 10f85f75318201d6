import Mathlib.Data.List.Basic
import ElmSuite.Text.Line
import ElmSuite.Text.Utf8

/-!
# Text in ASCII

Text of ASCII characters is encoded with one byte a character and decoded as it was.
-/

namespace ElmSuite

theorem toList_loop (bytes : ByteArray) (i : Nat) (before : List UInt8) :
    ByteArray.toList.loop bytes i before = before.reverse ++ bytes.data.toList.drop i := by
  have hsize : bytes.data.toList.length = bytes.size := rfl
  fun_induction ByteArray.toList.loop bytes i before with
  | case1 i before hi ih =>
    have hi' : i < bytes.data.toList.length := hi
    have hget : bytes.get! i = bytes.data.toList[i] := getElem!_pos bytes.data i hi
    rw [ih, List.drop_eq_getElem_cons hi', List.reverse_cons, List.append_assoc,
      List.singleton_append, hget]
  | case2 i before hi =>
    rw [List.drop_eq_nil_of_le (by omega), List.append_nil]

/-- The bytes of an array that holds a list are those of the list. -/
theorem toList_toByteArray (bytes : List UInt8) : bytes.toByteArray.toList = bytes := by
  rw [ByteArray.toList, toList_loop, List.toList_data_toByteArray]
  rfl

/-- The bytes of a text are those of its characters. -/
theorem toUTF8_toList (s : String) : s.toUTF8.toList = s.toList.flatMap String.utf8EncodeChar := by
  have hencode : s.toUTF8 = s.toList.utf8Encode := by
    rw [← String.toByteArray_ofList, String.ofList_toList]
    rfl
  rw [hencode, List.utf8Encode, toList_toByteArray]

namespace Utf8

theorem readFrom_ascii {text : List Char} (h : ∀ c ∈ text, c.toNat < 0x80) (position : Nat)
    (read : List Char) :
    readFrom .ready position [] read (text.flatMap String.utf8EncodeChar) =
      .ok (read.reverse ++ text) := by
  induction text generalizing position read with
  | nil => simp [readFrom]
  | cons c text ih =>
    have hc := h c (List.mem_cons_self ..)
    have hencode : String.utf8EncodeChar c = [UInt8.ofNat c.toNat] :=
      if_pos (show c.val.toNat ≤ 127 by have : c.val.toNat = c.toNat := rfl; omega)
    have hbyte : (UInt8.ofNat c.toNat).toNat = c.toNat := by
      simp only [UInt8.toNat_ofNat']
      omega
    have hstep : step .ready (UInt8.ofNat c.toNat) = .complete c := by
      simp only [step, firstByte, hbyte, hc, if_true, Char.ofNat_toNat]
    rw [List.flatMap_cons, hencode, List.singleton_append, readFrom, hstep]
    dsimp only
    rw [ih (fun d hd => h d (List.mem_cons_of_mem c hd)), List.reverse_cons, List.append_assoc,
      List.singleton_append]

theorem decode_ascii {s : String} (h : ∀ c ∈ s.toList, c.toNat < 0x80) :
    decode s.toUTF8.toList = .ok s.toList := by
  rw [decode, toUTF8_toList, readFrom_ascii h]
  rfl

end Utf8

namespace Text

theorem unifyLineEnds_of_not_mem {text : List Char} (h : '\r' ∉ text) : unifyLineEnds text = text := by
  induction text with
  | nil => rfl
  | cons c text ih =>
    rw [List.mem_cons, not_or] at h
    rw [unifyLineEnds, if_neg (Ne.symm h.1), ih h.2]
    rintro rest rfl
    exact absurd rfl h.1

end Text

end ElmSuite
