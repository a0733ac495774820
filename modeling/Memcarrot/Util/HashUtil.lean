import Memcarrot.Util.JavaString

namespace Memcarrot

/-- `getBytes` with UTF-8. -/
def Text.getBytes (s : Text) : List UInt8 := s.flatMap String.utf8EncodeChar

/-- The digest SHA-256, and `Utils.toHex` of the cache. -/
structure HashUtil where
  sha256 : List UInt8 → List UInt8
  toHex : List UInt8 → Text

def HashUtil.hashString (H : HashUtil) (input : Text) : Text := H.toHex (H.sha256 input.getBytes)

namespace Text

theorem getBytes_asciiChar {b : UInt8} (hb : b < 0x80) :
    String.utf8EncodeChar (asciiChar b) = [b] := by
  have hcode : (asciiChar b).val.toNat = b.toNat := toNat_asciiChar b
  have hle : b.toNat ≤ 0x7f := by
    rw [UInt8.lt_iff_toNat_lt] at hb
    exact Nat.le_of_lt_succ hb
  rw [String.utf8EncodeChar]
  simp only [hcode, hle, if_true, UInt8.ofNat_toNat]

/-- The bytes of ASCII are encoded as themselves. -/
theorem getBytes_map_asciiChar {bytes : List UInt8} (h : ∀ b ∈ bytes, b < 0x80) :
    getBytes (bytes.map asciiChar) = bytes := by
  induction bytes with
  | nil => rfl
  | cons b bytes ih =>
    rw [List.forall_mem_cons] at h
    rw [List.map_cons, getBytes, List.flatMap_cons, getBytes_asciiChar h.1]
    exact congrArg (b :: ·) (ih h.2)

end Text

end Memcarrot
