import CodeInsight.Text.Basic

/-!
# Texts as bytes

Files hold bytes. A file is a text when its bytes are UTF-8.
-/

namespace CodeInsight

abbrev Bytes := List UInt8

namespace Text

def encode (text : Text) : Bytes := (String.ofList text).toUTF8.toList

def decode? (bytes : Bytes) : Option Text :=
  (String.fromUTF8? ⟨bytes.toArray⟩).map String.toList

end Text

end CodeInsight
