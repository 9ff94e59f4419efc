/-! # Texts and their blanks

A text is a list of characters. Blanks are the characters with the Unicode property White_Space, of
which the classes of `Char` know the ASCII part only. Trimming, words and pieces cut a text at
blanks; the length of a text in UTF-8 bytes is a measure on it.
-/

namespace Octet

abbrev Text := List Char

namespace Text

/-- The Unicode property White_Space. -/
def isBlank (c : Char) : Bool :=
  (0x9 ≤ c.val && c.val ≤ 0xD) || c.val == 0x20 || c.val == 0x85 || c.val == 0xA0 ||
  c.val == 0x1680 || (0x2000 ≤ c.val && c.val ≤ 0x200A) || c.val == 0x2028 || c.val == 0x2029 ||
  c.val == 0x202F || c.val == 0x205F || c.val == 0x3000

def trimStart (t : Text) : Text := t.dropWhile isBlank

def trimEnd (t : Text) : Text := (t.reverse.dropWhile isBlank).reverse

def trim (t : Text) : Text := trimEnd (trimStart t)

/-- The maximal blank-free parts, from left to right. -/
def words (t : Text) : List Text := (t.splitOnP isBlank).filter (!·.isEmpty)

/-- The maximal parts without a space. Other blanks do not separate pieces. -/
def pieces (t : Text) : List Text := (t.splitOn ' ').filter (!·.isEmpty)

def dropSuffix? (t suffix : Text) : Option Text :=
  if suffix.isSuffixOf t then some (t.take (t.length - suffix.length)) else none

theorem dropSuffix?_append (t suffix : Text) : dropSuffix? (t ++ suffix) suffix = some t := by
  simp [dropSuffix?, List.isSuffixOf_iff_suffix]

theorem eq_append_of_dropSuffix? {suffix t r : Text} (h : dropSuffix? t suffix = some r) :
    t = r ++ suffix := by
  simp only [dropSuffix?, List.isSuffixOf_iff_suffix, Option.ite_none_right_eq_some,
    Option.some.injEq] at h
  obtain ⟨⟨s, rfl⟩, rfl⟩ := h
  simp

/-- The number of bytes of the text in UTF-8. -/
def utf8Size : Text → Nat
  | [] => 0
  | c :: t => c.utf8Size + utf8Size t

@[simp] theorem utf8Size_nil : utf8Size [] = 0 := rfl

@[simp] theorem utf8Size_cons (c : Char) (t : Text) :
    utf8Size (c :: t) = c.utf8Size + utf8Size t := rfl

@[simp] theorem utf8Size_append (s t : Text) : utf8Size (s ++ t) = utf8Size s + utf8Size t := by
  induction s with
  | nil => simp
  | cons c s ih => rw [List.cons_append, utf8Size_cons, utf8Size_cons, ih, Nat.add_assoc]

theorem length_le_utf8Size (t : Text) : t.length ≤ utf8Size t := by
  induction t with
  | nil => simp
  | cons c t ih => have := c.utf8Size_pos; simp only [List.length_cons, utf8Size_cons]; omega

/-- The leading characters that fill exactly `n` bytes, if some do. -/
def takeUtf8? : Nat → Text → Option Text
  | 0, _ => some []
  | _ + 1, [] => none
  | n + 1, c :: t =>
    if c.utf8Size ≤ n + 1 then (takeUtf8? (n + 1 - c.utf8Size) t).map (c :: ·) else none

theorem takeUtf8?_append (s t : Text) : takeUtf8? (utf8Size s) (s ++ t) = some s := by
  induction s with
  | nil => simp [takeUtf8?]
  | cons c s ih =>
    have hc := c.utf8Size_pos
    obtain ⟨n, hn⟩ : ∃ n, utf8Size (c :: s) = n + 1 := ⟨utf8Size (c :: s) - 1, by simp; omega⟩
    have hr : n + 1 - c.utf8Size = utf8Size s := by simp at hn; omega
    have hle : c.utf8Size ≤ n + 1 := by simp at hn; omega
    rw [hn, List.cons_append, takeUtf8?, if_pos hle, hr, ih]
    rfl

end Text

end Octet
