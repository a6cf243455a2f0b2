import PagePartials.Encoding.Named
import Mathlib.Data.List.TakeWhile

/-!
# The characters of an encoding

UTF-8 and UTF-16 have bytes for every character, plain or signed; the encodings of one byte have
them for the characters below a limit. A text has bytes just if all its characters do. What is read
from bytes has only such characters, and reading it with its newlines unified adds none but the
newline, which every encoding that is built in has.

## Main definitions

* `Charset.Has e c`: the encoding `e` has bytes for the character `c`
* `Encoding.Covers e t`: the encoding `e`, if it is built in, has bytes for the text `t`

## Main results

* `Charset.exists_encode_iff`: which texts have bytes
* `Charset.has_of_decode`: the characters of a text that was decoded
* `Encoding.Covers.encode_ne_error`: a text that is covered has bytes
* `Text.mem_unifyNewlines`: the characters of a text with its newlines unified
-/

namespace PagePartials

theorem mapError_eq_ok_iff {ε ε' α : Type} {f : ε → ε'} {x : Except ε α} {a : α} :
    x.mapError f = .ok a ↔ x = .ok a := by
  cases x with
  | error e => exact ⟨nofun, nofun⟩
  | ok b =>
    exact ⟨fun h => congrArg Except.ok (Except.ok.inj h),
      fun h => congrArg Except.ok (Except.ok.inj h)⟩

namespace Charset

variable {e : Charset} {t : Text} {c : Char} {bs : Bytes}

/-- Whether the encoding has bytes for the character. -/
def Has : Charset → Char → Prop
  | utf8, _ | signedUtf8, _ | utf16 _, _ | signedUtf16, _ => True
  | ascii, c => c.toNat < 0x80
  | latin1, c => c.toNat < 0x100

/-- Every encoding has the characters of ASCII. -/
theorem has_of_lt (e : Charset) (hc : c.toNat < 0x80) : e.Has c := by
  cases e with
  | utf8 | signedUtf8 | utf16 _ | signedUtf16 => exact trivial
  | ascii => exact hc
  | latin1 => exact Nat.lt_trans hc (by decide)

theorem encodeBelow_eq_ok_iff {encoding : Text} {limit : Nat} :
    encodeBelow encoding limit t = .ok bs ↔
      (∀ c ∈ t, c.toNat < limit) ∧ bs = t.map fun c => .ofNat c.toNat := by
  have hdrop : (t.dropWhile fun c => decide (c.toNat < limit)) = [] ↔ ∀ c ∈ t, c.toNat < limit := by
    simp [List.dropWhile_eq_nil_iff]
  rw [← hdrop, encodeBelow]
  split
  next hnil => exact ⟨fun h => ⟨hnil, (Except.ok.inj h).symm⟩, fun h => by rw [h.2]⟩
  next hne => exact ⟨fun h => (nomatch h), fun h => absurd h.1 hne⟩

/-- **Which texts have bytes**: those whose characters all have. -/
theorem exists_encode_iff (e : Charset) (t : Text) :
    (∃ bs, e.encode t = .ok bs) ↔ ∀ c ∈ t, e.Has c := by
  cases e with
  | utf8 | signedUtf8 | utf16 _ | signedUtf16 => exact ⟨fun _ _ _ => trivial, fun _ => ⟨_, rfl⟩⟩
  | ascii | latin1 =>
    exact ⟨fun ⟨_, h⟩ => (encodeBelow_eq_ok_iff.mp h).1,
      fun h => ⟨_, encodeBelow_eq_ok_iff.mpr ⟨h, rfl⟩⟩⟩

theorem toNat_ofNat_byte (b : UInt8) : (Char.ofNat b.toNat).toNat = b.toNat := by
  have hb : b.toNat < 0x100 := b.toNat_lt
  have hvalid : b.toNat.isValidChar := .inl (by omega)
  rw [Char.ofNat, dif_pos hvalid]
  rfl

/-- A text that was decoded has only characters of the encoding. -/
theorem has_of_decode (h : e.decode bs = .ok t) (hc : c ∈ t) : e.Has c := by
  cases e with
  | utf8 | signedUtf8 | utf16 _ | signedUtf16 => exact trivial
  | ascii =>
    rw [decode, mapError_eq_ok_iff, decodeAscii] at h
    split at h
    next hnil =>
      obtain rfl := Except.ok.inj h
      obtain ⟨b, hb, rfl⟩ := List.mem_map.mp hc
      have hlt := List.dropWhile_eq_nil_iff.mp hnil b hb
      rw [Has, toNat_ofNat_byte]
      exact of_decide_eq_true hlt
    next => exact nomatch h
  | latin1 =>
    obtain rfl := Except.ok.inj h
    obtain ⟨b, -, rfl⟩ := List.mem_map.mp hc
    rw [Has, toNat_ofNat_byte]
    exact b.toNat_lt

theorem codec_decode (e : Charset) : e.codec.decode = e.decode := rfl

theorem codec_encode_eq_ok_iff : e.codec.encode t = .ok bs ↔ e.encode t = .ok bs :=
  mapError_eq_ok_iff

end Charset

/-- Whether the encoding, if it is one that is built in, has bytes for the text. -/
def Encoding.Covers (e : Encoding) (t : Text) : Prop :=
  ∀ charset : Charset, e.codec = .ok charset.codec → ∀ c ∈ t, charset.Has c

/-- Nothing is in the way of a text that is covered. -/
theorem Encoding.Covers.encode_ne_error {e : Encoding} {t : Text} {codec : Codec}
    {error : EncodingError} (h : e.Covers t) (he : e.IsBuiltIn) (hcodec : e.codec = .ok codec) :
    codec.encode t ≠ .error error := by
  obtain ⟨charset, rfl⟩ := he codec hcodec
  obtain ⟨bytes, hbytes⟩ := (charset.exists_encode_iff t).mpr (h charset hcodec)
  rw [Charset.codec_encode_eq_ok_iff.mpr hbytes]
  exact nofun

/-- Unifying newlines adds no character but the newline. -/
theorem Text.mem_unifyNewlines {t : Text} {c : Char} (hc : c ∈ t.unifyNewlines) :
    c = '\n' ∨ c ∈ t := by
  induction t using Text.unifyNewlines.induct with
  | case1 t ih =>
    rw [unifyNewlines, List.mem_cons] at hc
    rcases hc with rfl | hc
    · exact .inl rfl
    · exact (ih hc).imp_right fun h => List.mem_cons_of_mem _ (List.mem_cons_of_mem _ h)
  | case2 t hne ih =>
    rw [unifyNewlines, List.mem_cons] at hc
    rcases hc with rfl | hc
    · exact .inl rfl
    · exact (ih hc).imp_right (List.mem_cons_of_mem _)
    exact hne
  | case3 d t hne hne' ih =>
    rw [unifyNewlines, List.mem_cons] at hc
    rcases hc with rfl | hc
    · exact .inr List.mem_cons_self
    · exact (ih hc).imp_right (List.mem_cons_of_mem _)
    all_goals assumption
  | case4 => exact .inr hc

end PagePartials
