import RustyLibc.ByteOrder

/-!
# Records laid out in memory

A record without gaps is a list of fields, each a width in bytes and a value. Its
image puts the fields one behind the other; the value of a field is read back
from the image at the offset that the widths before it add up to. A field of a
record that is in memory already is written over where it lies.
-/

namespace RustyLibc.StructLayout
open ByteOrder

structure Field where
  width : ℕ
  value : ℕ

variable (e : Endian)

def image (fields : List Field) : List UInt8 :=
  fields.flatMap fun f => neBytes e f.width f.value

def size (fields : List Field) : ℕ := (fields.map Field.width).sum

/-- The number in `width` bytes from `off` on. -/
def fieldAt (bytes : List UInt8) (off width : ℕ) : ℕ := neVal e ((bytes.drop off).take width)

theorem length_image (fields : List Field) : (image e fields).length = size fields := by
  induction fields with
  | nil => rfl
  | cons f fields ih =>
    have hcons : image e (f :: fields) = neBytes e f.width f.value ++ image e fields := rfl
    rw [hcons, List.length_append, length_neBytes, ih]
    rfl

theorem fieldAt_image {pre post : List Field} {f : Field} (hf : f.value < 256 ^ f.width) :
    fieldAt e (image e (pre ++ f :: post)) (size pre) f.width = f.value := by
  have hsplit : image e (pre ++ f :: post) =
      image e pre ++ (neBytes e f.width f.value ++ image e post) := by
    simp [image]
  rw [fieldAt, hsplit, List.drop_left' (length_image e pre), List.take_left' (length_neBytes e _ _),
    neVal_neBytes_of_lt e hf]

/-- The same, by the number of the field. -/
theorem fieldAt_getElem {fields : List Field} (i : ℕ) {off width value : ℕ}
    (hget : fields[i]? = some ⟨width, value⟩) (hoff : size (fields.take i) = off)
    (hvalue : value < 256 ^ width) : fieldAt e (image e fields) off width = value := by
  obtain ⟨hi, hfield⟩ := List.getElem?_eq_some_iff.mp hget
  have hsplit : fields = fields.take i ++ ⟨width, value⟩ :: fields.drop (i + 1) := by
    rw [← hfield, List.getElem_cons_drop, List.take_append_drop]
  have hread : fieldAt e (image e (fields.take i ++ ⟨width, value⟩ :: fields.drop (i + 1)))
      (size (fields.take i)) width = value := fieldAt_image e hvalue
  rwa [← hsplit, hoff] at hread

def putField (bytes : List UInt8) (off width value : ℕ) : List UInt8 :=
  bytes.take off ++ (neBytes e width value ++ bytes.drop (off + width))

theorem length_putField {bytes : List UInt8} {off width : ℕ} (value : ℕ)
    (h : off + width ≤ bytes.length) : (putField e bytes off width value).length = bytes.length := by
  simp only [putField, List.length_append, List.length_take, length_neBytes, List.length_drop]
  omega

theorem fieldAt_putField {bytes : List UInt8} {off width value : ℕ}
    (h : off + width ≤ bytes.length) (hvalue : value < 256 ^ width) :
    fieldAt e (putField e bytes off width value) off width = value := by
  have hfront : (bytes.take off).length = off := List.length_take_of_le (by omega)
  rw [fieldAt, putField, List.drop_left' hfront, List.take_left' (length_neBytes e _ _),
    neVal_neBytes_of_lt e hvalue]

theorem fieldAt_putField_before {bytes : List UInt8} {off width off' width' : ℕ} (value : ℕ)
    (h : off' + width' ≤ off) (hfits : off ≤ bytes.length) :
    fieldAt e (putField e bytes off width value) off' width' = fieldAt e bytes off' width' := by
  have hlen : (bytes.drop off').length = bytes.length - off' := List.length_drop
  rw [fieldAt, fieldAt, putField, List.drop_append_of_le_length (by rw [List.length_take]; omega),
    List.drop_take, List.take_append_of_le_length (by rw [List.length_take]; omega),
    List.take_take, Nat.min_eq_left (by omega)]

end RustyLibc.StructLayout
