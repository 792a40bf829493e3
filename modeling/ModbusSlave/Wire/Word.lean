/-!
# Words on the wire

Everything that travels is a list of bytes. Addresses, counts and register values are sixteen-bit
words sent with the high byte first; the checksum of a serial frame is sent with the low byte first.
Both orders are read back by the same `Word.join`.
-/
namespace ModbusSlave

abbrev Bytes := List UInt8

namespace Word

def high (w : UInt16) : UInt8 := UInt8.ofNat (w.toNat / 256)

def low (w : UInt16) : UInt8 := UInt8.ofNat (w.toNat % 256)

def join (high low : UInt8) : UInt16 := UInt16.ofNat (high.toNat * 256 + low.toNat)

theorem toNat_high (w : UInt16) : (high w).toNat = w.toNat / 256 := by
  have := w.toNat_lt
  simp only [high, UInt8.toNat_ofNat']
  omega

theorem toNat_low (w : UInt16) : (low w).toNat = w.toNat % 256 := by
  simp only [low, UInt8.toNat_ofNat']
  omega

theorem toNat_join (h l : UInt8) : (join h l).toNat = h.toNat * 256 + l.toNat := by
  have := h.toNat_lt
  have := l.toNat_lt
  simp only [join, UInt16.toNat_ofNat']
  omega

@[simp] theorem join_high_low (w : UInt16) : join (high w) (low w) = w := by
  apply UInt16.toNat_inj.mp
  rw [toNat_join, toNat_high, toNat_low]
  omega

@[simp] theorem high_join (h l : UInt8) : high (join h l) = h := by
  have := l.toNat_lt
  apply UInt8.toNat_inj.mp
  rw [toNat_high, toNat_join]
  omega

@[simp] theorem low_join (h l : UInt8) : low (join h l) = l := by
  have := l.toNat_lt
  apply UInt8.toNat_inj.mp
  rw [toNat_low, toNat_join]
  omega

/-- High byte first, the order of every field of a request or response. -/
def big (w : UInt16) : Bytes := [high w, low w]

@[simp] theorem big_join (h l : UInt8) : big (join h l) = [h, l] := by
  rw [big, high_join, low_join]

/-- Low byte first, the order of the serial checksum. -/
def little (w : UInt16) : Bytes := [low w, high w]

/-- The words of a byte string taken two bytes at a time; an odd last byte is no word. -/
def list : Bytes → List UInt16
  | h :: l :: rest => join h l :: list rest
  | _ => []

@[simp] theorem list_flatMap_big (ws : List UInt16) : list (ws.flatMap big) = ws := by
  induction ws with
  | nil => rfl
  | cons w ws ih => simp [big, list, ih]

end Word

end ModbusSlave
