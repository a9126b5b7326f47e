/-!
# Byte lengths of text

Patterns are read as lists of characters, while spans count bytes of the
UTF-8 encoding. `Text.byteLength` is the bridge between the two.
-/

namespace Regexp.Text

/-- The number of bytes of the UTF-8 encoding. -/
def byteLength : List Char → Nat
  | [] => 0
  | c :: cs => c.utf8Size + byteLength cs

@[simp] theorem byteLength_nil : byteLength [] = 0 := rfl

@[simp] theorem byteLength_cons (c : Char) (cs : List Char) :
    byteLength (c :: cs) = c.utf8Size + byteLength cs := rfl

@[simp] theorem byteLength_append (s t : List Char) :
    byteLength (s ++ t) = byteLength s + byteLength t := by
  induction s with
  | nil => simp
  | cons c s ih => simp [ih, Nat.add_assoc]

theorem byteLength_pos {s : List Char} (h : s ≠ []) : 0 < byteLength s := by
  cases s with
  | nil => exact (h rfl).elim
  | cons c cs => exact Nat.add_pos_left c.utf8Size_pos _

/-- It is the size that strings know of themselves. -/
theorem byteLength_toList (s : String) : byteLength s.toList = s.utf8ByteSize := by
  suffices h : ∀ cs, byteLength cs = (String.ofList cs).utf8ByteSize by
    rw [h, String.ofList_toList]
  intro cs
  induction cs with
  | nil => rfl
  | cons c cs ih =>
    rw [byteLength_cons, ih]
    simp [String.ofList_cons]

/-- Where a text between two characters ends. -/
theorem add_byteLength_enclosed (start : Nat) (o c : Char) (s : List Char) :
    start + byteLength (o :: (s ++ [c]))
      = start + byteLength [o] + byteLength s + byteLength [c] := by
  simp [Nat.add_assoc]

end Regexp.Text
