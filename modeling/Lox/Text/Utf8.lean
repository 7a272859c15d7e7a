namespace Lox.Text

abbrev Bytes := List UInt8

-- The text that the bytes are the UTF-8 form of, if they are one.
def decode? (bytes : Bytes) : Option String :=
  String.fromUTF8? ⟨bytes.toArray⟩

def encode (text : String) : Bytes := text.toUTF8.data.toList

@[simp] theorem encode_empty : encode "" = [] := rfl

@[simp] theorem encode_append (s t : String) : encode (s ++ t) = encode s ++ encode t := by
  simp [encode, String.toByteArray_append, ByteArray.data_append]

@[simp] theorem length_encode (text : String) : (encode text).length = text.utf8ByteSize := rfl

-- Cuts behind every newline. What follows the last one is a line too, if there is anything.
def lines : Bytes → List Bytes
  | [] => []
  | byte :: rest =>
    if byte = 10 then [byte] :: lines rest
    else
      match lines rest with
      | [] => [[byte]]
      | line :: more => (byte :: line) :: more

end Lox.Text
