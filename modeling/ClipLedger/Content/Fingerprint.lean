import ClipLedger.Content.Sha256
import ClipLedger.Text.Hex

/-
  Fingerprints: the leading 16 bytes of the SHA-256 digest of some content. Equal content has
  equal fingerprints.
-/
namespace ClipLedger

/-- A digest of 128 bits by which content is recognised. -/
structure Fingerprint where
  bytes : Bytes
  deriving DecidableEq, Repr

namespace Fingerprint

/-- The first 16 bytes of the `Sha256.digest` of `content`. -/
def of (content : Bytes) : Fingerprint := ⟨(Sha256.digest content).take 16⟩

/-- The fingerprint of the bytes of `t` in UTF-8. -/
def ofText (t : Text) : Fingerprint := of (Utf8.encode t)

/-- The 32 hexadecimal digits. -/
def hex (f : Fingerprint) : Text := Hex.ofBytes f.bytes

/-- The first eight digits of `hex`. -/
def short (f : Fingerprint) : Text := f.hex.take 8

/-- The digits with the name of the type. -/
def debugText (f : Fingerprint) : Text := "Fingerprint(".toList ++ f.hex ++ [')']

theorem length_hex_of (content : Bytes) : (of content).hex.length = 32 := by
  rw [hex, Hex.length_ofBytes, of, List.length_take, Sha256.length_digest]
  rfl

end Fingerprint
end ClipLedger
