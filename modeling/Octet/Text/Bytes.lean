import Octet.Text.Blank
import Octet.Word

/-! # Texts as bytes

What comes from outside, such as an argument or the name of a file, is a string of bytes. It is a text
if it is one in UTF-8 (`text?_eq_some_iff`). To be shown it need not be one: each part of it that no
character can begin with, or none can go on with, is shown as the replacement character.
-/

namespace Octet

abbrev Bytes := List Byte

namespace Bytes

@[match_pattern] abbrev dash : Byte := 0x2D

@[match_pattern] abbrev dot : Byte := 0x2E

@[match_pattern] abbrev slash : Byte := 0x2F

@[match_pattern] abbrev equals : Byte := 0x3D

def ofText (t : Text) : Bytes := t.flatMap String.utf8EncodeChar

def text? (bs : Bytes) : Option Text := (String.fromUTF8? bs.toByteArray).map (·.toList)

variable {bs : Bytes} {t : Text}

theorem ofText_append (t u : Text) : ofText (t ++ u) = ofText t ++ ofText u := List.flatMap_append

theorem text?_ofText (t : Text) : (ofText t).text? = some t := by
  have hvalid : (ofText t).toByteArray.IsValidUTF8 := .intro t rfl
  have htext : String.fromUTF8 _ hvalid = String.ofList t := String.toByteArray_inj.1 rfl
  rw [text?, String.fromUTF8?, dif_pos hvalid, Option.map_some, htext, String.toList_ofList]

theorem text?_eq_some_iff : bs.text? = some t ↔ bs = ofText t := by
  refine ⟨fun h => ?_, fun h => h ▸ text?_ofText t⟩
  obtain ⟨u, rfl⟩ : ∃ u, bs = ofText u := by
    rw [text?, String.fromUTF8?] at h
    split at h
    · next hvalid =>
      obtain ⟨u, hu⟩ := hvalid
      exact ⟨u, List.toByteArray_inj.1 hu⟩
    · cases h
  rw [text?_ofText, Option.some.injEq] at h
  rw [h]

/-- The ranges of the bytes that can follow this one in a character. -/
def trailing (b : Byte) : List (Byte × Byte) :=
  if 0xC2 ≤ b ∧ b ≤ 0xDF then [(0x80, 0xBF)]
  else if b = 0xE0 then [(0xA0, 0xBF), (0x80, 0xBF)]
  else if b = 0xED then [(0x80, 0x9F), (0x80, 0xBF)]
  else if 0xE1 ≤ b ∧ b ≤ 0xEF then [(0x80, 0xBF), (0x80, 0xBF)]
  else if b = 0xF0 then [(0x90, 0xBF), (0x80, 0xBF), (0x80, 0xBF)]
  else if 0xF1 ≤ b ∧ b ≤ 0xF3 then [(0x80, 0xBF), (0x80, 0xBF), (0x80, 0xBF)]
  else if b = 0xF4 then [(0x80, 0x8F), (0x80, 0xBF), (0x80, 0xBF)]
  else []

/-- How many bytes go on with a character that begins with this one. -/
def continued (b : Byte) (bs : Bytes) : Nat :=
  let fitting := ((trailing b).zip bs).takeWhile fun (range, x) => range.1 ≤ x && x ≤ range.2
  fitting.length

def shown : Bytes → Text
  | [] => []
  | b :: bs =>
    match (b :: bs).toByteArray.utf8DecodeChar? 0 with
    | some c => c :: shown (bs.drop (c.utf8Size - 1))
    | none => .ofNat 0xFFFD :: shown (bs.drop (continued b bs))
termination_by bs => bs.length
decreasing_by all_goals simp only [List.length_drop, List.length_cons]; omega

/-- A text is shown as it is. -/
@[simp] theorem shown_ofText (t : Text) : shown (ofText t) = t := by
  induction t with
  | nil => rw [ofText, List.flatMap_nil, shown]
  | cons c t ih =>
    have hlength := String.length_utf8EncodeChar c
    rw [ofText, List.flatMap_cons, ← ofText]
    cases hc : String.utf8EncodeChar c with
    | nil =>
      rw [hc] at hlength
      exact absurd hlength (Nat.ne_of_lt c.utf8Size_pos)
    | cons b bs =>
      have hdecode : (b :: (bs ++ ofText t)).toByteArray.utf8DecodeChar? 0 = some c := by
        rw [← List.cons_append, ← hc, List.toByteArray_append]
        exact ByteArray.utf8DecodeChar?_utf8EncodeChar_append
      have hdrop : c.utf8Size - 1 = bs.length := by
        rw [← hlength, hc, List.length_cons, Nat.add_sub_cancel]
      rw [List.cons_append, shown, hdecode]
      simp only [hdrop, List.drop_left, ih]

/-- Of a character that is cut off there is one mark, and so of each byte that begins none. -/
example : shown [0x61, 0xE2, 0x82, 0xFF, 0x62] = ['a', .ofNat 0xFFFD, .ofNat 0xFFFD, 'b'] := by
  decide +kernel

end Bytes

end Octet
