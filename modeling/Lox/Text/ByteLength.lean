namespace Lox.Text

-- The number of bytes that the characters take in UTF-8.
def byteLength : List Char → Nat
  | [] => 0
  | c :: chars => c.utf8Size + byteLength chars

theorem byteLength_nil : byteLength [] = 0 := rfl

theorem byteLength_cons (c : Char) (chars : List Char) :
    byteLength (c :: chars) = c.utf8Size + byteLength chars := rfl

theorem byteLength_append (left right : List Char) :
    byteLength (left ++ right) = byteLength left + byteLength right := by
  induction left with
  | nil => simp [byteLength_nil]
  | cons c left ih => simp [byteLength_cons, ih, Nat.add_assoc]

-- The longest front of the characters that fits into so many bytes.
def takeBytes : Nat → List Char → List Char
  | _, [] => []
  | size, c :: chars =>
    if c.utf8Size ≤ size then c :: takeBytes (size - c.utf8Size) chars else []

-- A front is found again from its size, whatever follows it.
theorem takeBytes_append (front chars : List Char) :
    takeBytes (byteLength front) (front ++ chars) = front := by
  induction front with
  | nil =>
    cases chars with
    | nil => rfl
    | cons c chars =>
      have hc : ¬ c.utf8Size ≤ 0 := Nat.not_le.mpr c.utf8Size_pos
      simp [byteLength_nil, takeBytes, hc]
  | cons c front ih =>
    simp [byteLength_cons, takeBytes, ih]

end Lox.Text
