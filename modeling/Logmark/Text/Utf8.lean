import Logmark.Text.Blank

/-!
Texts as files hold them: encoded in UTF-8.
-/
namespace Logmark.Text

def encode (s : Text) : ByteArray := (String.ofList s).toUTF8

/-- The text that the bytes encode, unless they are no UTF-8. -/
def decode? (bytes : ByteArray) : Option Text := (String.fromUTF8? bytes).map String.toList

@[simp] theorem decode?_encode (s : Text) : decode? (encode s) = some s := by
  have h : String.fromUTF8? (String.ofList s).toUTF8 = some (String.ofList s) := by
    exact dif_pos (String.ofList s).isValidUTF8
  rw [decode?, encode, h]
  simp

end Logmark.Text
