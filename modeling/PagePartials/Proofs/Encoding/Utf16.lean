import PagePartials.Encoding.Utf16
import PagePartials.Proofs.Encoding.Utf8

/-!
# Decoding what was encoded in units

Every text comes back from its UTF-16 bytes, in either byte order and with a mark in front. No
character has its number among the halves of pairs; so the first unit of a character tells whether
a second one follows, and the halves of a pair hold its number.

Where a mark is asked for and missing, bytes that are a text without it are refused as a whole; for
others the place is told where they are none.

## Main results

* `Utf16.decode_encode`: the bytes of a text are decoded to that text
* `Utf16.decodeSigned_encodeSigned`: and so are those with a mark in front
* `Utf16.decodeSigned_eq_refused_iff`: which bytes are refused
-/

namespace PagePartials

namespace Utf16

variable {order : ByteOrder} {position unit : Nat} {a b : UInt8} {bs : Bytes} {t : Text} {c : Char}

/-! ## Units -/

/-- A unit comes back from its bytes. -/
theorem ByteOrder.exists_bytes_eq (order : ByteOrder) (hunit : unit < 0x10000) :
    ∃ a b, order.bytes unit = [a, b] ∧ order.unit a b = unit := by
  have hlower : (UInt8.ofNat (unit % 0x100)).toNat = unit % 0x100 :=
    Utf8.toNat_ofNat_first (Nat.mod_lt _ (by decide))
  have hupper : (UInt8.ofNat (unit / 0x100)).toNat = unit / 0x100 :=
    Utf8.toNat_ofNat_first (by omega)
  cases order with
  | little =>
    refine ⟨_, _, rfl, ?_⟩
    rw [ByteOrder.unit, hlower, hupper]
    omega
  | big =>
    refine ⟨_, _, rfl, ?_⟩
    rw [ByteOrder.unit, hlower, hupper]
    omega

theorem isFirstHalf_iff : isFirstHalf unit = true ↔ 0xD800 ≤ unit ∧ unit < 0xDC00 := by
  simp [isFirstHalf]

theorem isSecondHalf_iff : isSecondHalf unit = true ↔ 0xDC00 ≤ unit ∧ unit < 0xE000 := by
  simp [isSecondHalf]

/-- The halves of a pair hold the number of its character. -/
theorem charOf_halves (hc : 0x10000 ≤ c.toNat) :
    charOf (0xD800 + (c.toNat - 0x10000) / 0x400) (0xDC00 + c.toNat % 0x400) = c := by
  rw [charOf]
  apply Utf8.ofNat_of_eq_toNat
  omega

/-! ## Characters -/

theorem encode_cons (order : ByteOrder) (c : Char) (t : Text) :
    encode order (c :: t) = (unitsOf c).flatMap order.bytes ++ encode order t := by
  rw [encode, List.flatMap_cons, List.flatMap_append, encode]

section

variable (h : ∀ position, decodeFrom order position bs = .ok t)

include h

/-- A character in a unit of its own. -/
theorem decodeFrom_one (hc : c.toNat < 0x10000) :
    decodeFrom order position (order.bytes c.toNat ++ bs) = .ok (c :: t) := by
  -- The number is that of no half of a pair.
  have hrange := Utf8.toNat_lt_or c
  have hfirst : ¬ isFirstHalf c.toNat = true := by
    rw [isFirstHalf_iff]
    omega
  have hsecond : ¬ isSecondHalf c.toNat = true := by
    rw [isSecondHalf_iff]
    omega
  obtain ⟨a, b, hbytes, hunit⟩ := order.exists_bytes_eq hc
  rw [hbytes, List.cons_append, List.cons_append, List.nil_append, decodeFrom.eq_def]
  simp only [hunit]
  rw [if_neg hfirst, if_neg hsecond, h, Char.ofNat_toNat]
  rfl

/-- A character in a pair of units. -/
theorem decodeFrom_two (hc : 0x10000 ≤ c.toNat) :
    decodeFrom order position (order.bytes (0xD800 + (c.toNat - 0x10000) / 0x400) ++
      (order.bytes (0xDC00 + c.toNat % 0x400) ++ bs)) = .ok (c :: t) := by
  have hrange := Utf8.toNat_lt_or c
  have hfirst : isFirstHalf (0xD800 + (c.toNat - 0x10000) / 0x400) = true :=
    isFirstHalf_iff.mpr (by omega)
  have hsecond : isSecondHalf (0xDC00 + c.toNat % 0x400) = true := isSecondHalf_iff.mpr (by omega)
  have hfirstLt : 0xD800 + (c.toNat - 0x10000) / 0x400 < 0x10000 := by omega
  have hsecondLt : 0xDC00 + c.toNat % 0x400 < 0x10000 := by omega
  obtain ⟨a, b, hab, hfirstUnit⟩ := order.exists_bytes_eq hfirstLt
  obtain ⟨a', b', hab', hsecondUnit⟩ := order.exists_bytes_eq hsecondLt
  rw [hab, hab', List.cons_append, List.cons_append, List.nil_append, List.cons_append,
    List.cons_append, List.nil_append, decodeFrom.eq_def]
  simp only [hfirstUnit, hsecondUnit]
  rw [if_pos hfirst, if_pos hsecond, h, charOf_halves hc]
  rfl

/-- The bytes of a character are read as that character, whatever follows. -/
theorem decodeFrom_unitsOf (c : Char) (position : Nat) :
    decodeFrom order position ((unitsOf c).flatMap order.bytes ++ bs) = .ok (c :: t) := by
  unfold unitsOf
  split
  next hc =>
    rw [List.flatMap_cons, List.flatMap_nil, List.append_nil]
    exact decodeFrom_one h hc
  next hc =>
    rw [List.flatMap_cons, List.flatMap_cons, List.flatMap_nil, List.append_nil,
      List.append_assoc]
    exact decodeFrom_two h (Nat.not_lt.mp hc)

end

/-! ## Texts -/

theorem decodeFrom_encode (order : ByteOrder) (t : Text) (position : Nat) :
    decodeFrom order position (encode order t) = .ok t := by
  induction t generalizing position with
  | nil => rfl
  | cons c t ih =>
    rw [encode_cons]
    exact decodeFrom_unitsOf ih c position

/-- **A text comes back from its bytes.** -/
theorem decode_encode (order : ByteOrder) (t : Text) : decode order (encode order t) = .ok t :=
  decodeFrom_encode order t 0

/-- **A text comes back from its bytes** with a mark in front, which is taken off. -/
theorem decodeSigned_encodeSigned (t : Text) : decodeSigned (encodeSigned t) = .ok t := by
  have hmark : ByteOrder.little.mark.isPrefixOf (encodeSigned t) = true :=
    List.isPrefixOf_iff_prefix.mpr (List.prefix_append ..)
  have hdrop : (encodeSigned t).drop 2 = encode .little t := rfl
  rw [decodeSigned, if_pos hmark, hdrop, decodeFrom_encode]
  rfl

theorem mapError_undecodable_ne (r : Except Undecodable Text) (message : Text) :
    r.mapError DecodingError.undecodable ≠ .error (.refused message) := by
  cases r <;> exact nofun

/-- **Which bytes are refused**: those that have no mark in front and are a text all the same, if
there are any. -/
theorem decodeSigned_eq_refused_iff {message : Text} :
    decodeSigned bs = .error (.refused message) ↔ ¬ ByteOrder.little.mark <+: bs ∧
      ¬ ByteOrder.big.mark <+: bs ∧ (∃ t, t ≠ [] ∧ decode .little bs = .ok t) ∧
      unsigned = message := by
  simp only [← List.isPrefixOf_iff_prefix]
  unfold decodeSigned
  split
  next hlittle => simp [hlittle, mapError_undecodable_ne]
  next hlittle =>
    split
    next hbig => simp [hbig, mapError_undecodable_ne]
    next hbig =>
      rw [and_iff_right hlittle, and_iff_right hbig]
      rcases decode .little bs with e | (_ | ⟨c, t⟩) <;> simp

end Utf16

end PagePartials
