import PagePartials.Proofs.Encoding.Repertoire
import PagePartials.Proofs.Encoding.Utf16

/-!
# Texts that come back from their bytes

A text that has bytes in an encoding comes back from them. In the encodings of one byte each byte
holds the number of its character. A mark that is written in front of the bytes is taken off again,
and no other one: a text that starts with the character of the mark keeps it.

What is read from a file is not quite what its bytes say, since newlines are unified. A carriage
return with a newline behind it gives way to the newline, and one that is left becomes a newline.

## Main definitions

* `Encoding.IsBytesOf e t bs`: the bytes `bs` are those of `t` in the encoding `e`
* `Text.replaceWord w v t`: `t` with `v` in place of each `w`

## Main results

* `Charset.decode_encode`: a text comes back from its bytes
* `Encoding.isBytesOf_of_encode`: what a codec gives are the bytes of the text
* `Text.unifyNewlines_eq_replace`: how newlines are unified
-/

namespace PagePartials

namespace Charset

variable {e : Charset} {encoding t : Text} {bs : Bytes} {c : Char}

/-! ## Encodings of one byte -/

theorem ofNat_toNat_byte (hc : c.toNat < 0x100) : Char.ofNat (UInt8.ofNat c.toNat).toNat = c := by
  rw [Utf8.toNat_ofNat_first hc, Char.ofNat_toNat]

theorem map_ofNat_toNat_byte (ht : ∀ c ∈ t, c.toNat < 0x100) :
    (t.map fun c => UInt8.ofNat c.toNat).map (fun b => Char.ofNat b.toNat) = t := by
  rw [List.map_map]
  exact (List.map_congr_left fun c hc => ofNat_toNat_byte (ht c hc)).trans (List.map_id t)

theorem decodeAscii_eq_ok (hbs : ∀ b ∈ bs, b.toNat < 0x80) :
    decodeAscii encoding bs = .ok (bs.map fun b => .ofNat b.toNat) := by
  have hnil : (bs.dropWhile fun b => decide (b.toNat < 0x80)) = [] := by
    simpa [List.dropWhile_eq_nil_iff] using hbs
  simp only [decodeAscii, hnil]

/-! ## All encodings -/

/-- **A text comes back from its bytes.** -/
theorem decode_encode (h : e.encode t = .ok bs) : e.decode bs = .ok t := by
  cases e with
  | utf8 =>
    obtain rfl := Except.ok.inj h
    exact mapError_eq_ok_iff.mpr (Utf8.decode_encode t)
  | signedUtf8 =>
    obtain rfl := Except.ok.inj h
    have hmark : mark.isPrefixOf (mark ++ Utf8.encode t) = true :=
      List.isPrefixOf_iff_prefix.mpr (List.prefix_append ..)
    rw [decode, mapError_eq_ok_iff, decodeSignedUtf8, if_pos hmark, List.drop_left]
    exact Utf8.decode_encode t
  | utf16 order =>
    obtain rfl := Except.ok.inj h
    exact mapError_eq_ok_iff.mpr (Utf16.decode_encode order t)
  | signedUtf16 =>
    obtain rfl := Except.ok.inj h
    exact Utf16.decodeSigned_encodeSigned t
  | ascii =>
    obtain ⟨ht, rfl⟩ := encodeBelow_eq_ok_iff.mp h
    have ht' : ∀ c ∈ t, c.toNat < 0x100 := fun c hc => Nat.lt_trans (ht c hc) (by decide)
    have hbs : ∀ b ∈ t.map fun c => UInt8.ofNat c.toNat, b.toNat < 0x80 := by
      rw [List.forall_mem_map]
      intro c hc
      rw [Utf8.toNat_ofNat_first (ht' c hc)]
      exact ht c hc
    rw [decode, mapError_eq_ok_iff, decodeAscii_eq_ok hbs, map_ofNat_toNat_byte ht']
  | latin1 =>
    obtain ⟨ht, rfl⟩ := encodeBelow_eq_ok_iff.mp h
    rw [decode, map_ofNat_toNat_byte ht]

/-- **Which bytes are refused** without a place in them: none but those without a mark in signed
UTF-16. -/
theorem decode_eq_refused_iff {message : Text} : e.decode bs = .error (.refused message) ↔
    e = signedUtf16 ∧ ¬ Utf16.ByteOrder.little.mark <+: bs ∧ ¬ Utf16.ByteOrder.big.mark <+: bs ∧
      (∃ t, t ≠ [] ∧ Utf16.decode .little bs = .ok t) ∧ Utf16.unsigned = message := by
  cases e with
  | signedUtf16 =>
    rw [and_iff_right rfl]
    exact Utf16.decodeSigned_eq_refused_iff
  | utf8 | signedUtf8 | utf16 _ | ascii => simp [decode, Utf16.mapError_undecodable_ne]
  | latin1 => simp [decode]

end Charset

/-- The bytes are those of the text in the encoding: its codec gives them, and if the name is that
of an encoding that is built in, they are decoded in this one to the text again. -/
structure Encoding.IsBytesOf (e : Encoding) (t : Text) (bs : Bytes) : Prop where
  encoded : ∃ codec, e.codec = .ok codec ∧ codec.encode t = .ok bs
  decoded : ∀ charset : Charset, Charset.ofName? e.name = some charset → charset.decode bs = .ok t

theorem Encoding.isBytesOf_of_encode {e : Encoding} {codec : Codec} {t : Text} {bs : Bytes}
    (hcodec : e.codec = .ok codec) (h : codec.encode t = .ok bs) : e.IsBytesOf t bs := by
  refine ⟨⟨codec, hcodec, h⟩, fun charset hcharset => ?_⟩
  obtain rfl : charset.codec = codec :=
    Except.ok.inj ((e.codec_eq charset hcharset).symm.trans hcodec)
  exact Charset.decode_encode (Charset.codec_encode_eq_ok_iff.mp h)

/-! ## Newlines -/

namespace Text

variable {w v t : Text} {c : Char}

/-- The text with `v` in place of each occurrence of the word `w`, found from left to right. A word
without characters is found nowhere. -/
def replaceWord (w v : Text) : Text → Text
  | [] => []
  | c :: t =>
    match after? w (c :: t) with
    | some r => if _h : r.length ≤ t.length then v ++ replaceWord w v r else c :: replaceWord w v t
    | none => c :: replaceWord w v t
  termination_by t => t.length

theorem replaceWord_append (hw : w ≠ []) (v t : Text) :
    replaceWord w v (w ++ t) = v ++ replaceWord w v t := by
  obtain ⟨a, w, rfl⟩ := List.exists_cons_of_ne_nil hw
  have hafter : after? (a :: w) (a :: (w ++ t)) = some t := after?_append (a :: w) t
  rw [List.cons_append, replaceWord, hafter]
  simp

theorem replaceWord_cons_of_eq_none (h : after? w (c :: t) = none) :
    replaceWord w v (c :: t) = c :: replaceWord w v t := by
  rw [replaceWord, h]

theorem after?_cons_of_ne {a d : Char} (h : a ≠ d) (w t : Text) :
    after? (a :: w) (d :: t) = none := by
  rw [after?, if_neg h]

/-- A carriage return without a newline behind it is not the beginning of the two. -/
theorem after?_return_eq_none (h : ∀ t', t ≠ '\n' :: t') :
    after? ['\r', '\n'] ('\r' :: t) = none := by
  cases t with
  | nil => rfl
  | cons d t =>
    have hd : '\n' ≠ d := by
      rintro rfl
      exact h t rfl
    rw [after?, if_pos rfl, after?_cons_of_ne hd]

theorem replace_cons (old new d : Char) (t : Text) :
    replace old new (d :: t) = (if d = old then new else d) :: replace old new t := List.map_cons

/-- **How newlines are unified**: each carriage return with a newline behind it makes one newline
with it, and then each one that is left makes one of its own. -/
theorem unifyNewlines_eq_replace (t : Text) : t.unifyNewlines =
    replace '\r' '\n' (replaceWord ['\r', '\n'] ['\n'] t) := by
  induction t using Text.unifyNewlines.induct with
  | case1 t ih =>
    have hword : replaceWord ['\r', '\n'] ['\n'] ('\r' :: '\n' :: t) =
        '\n' :: replaceWord ['\r', '\n'] ['\n'] t :=
      replaceWord_append (w := ['\r', '\n']) (by decide) ['\n'] t
    rw [unifyNewlines, ih, hword, replace_cons, if_neg (by decide)]
  | case2 t hne ih =>
    rw [unifyNewlines, ih, replaceWord_cons_of_eq_none (after?_return_eq_none hne), replace_cons,
      if_pos rfl]
    exact hne
  | case3 d t hne hne' ih =>
    have hd : d ≠ '\r' := hne'
    rw [unifyNewlines, ih, replaceWord_cons_of_eq_none (after?_cons_of_ne hd.symm _ t),
      replace_cons, if_neg hd]
    all_goals assumption
  | case4 => rw [unifyNewlines, replaceWord]; rfl

/-- A text without carriage returns stays as it is. -/
theorem unifyNewlines_of_notMem (h : '\r' ∉ t) : t.unifyNewlines = t := by
  induction t using Text.unifyNewlines.induct with
  | case1 t ih => exact absurd List.mem_cons_self h
  | case2 t hne ih => exact absurd List.mem_cons_self h
  | case3 d t hne hne' ih =>
    rw [unifyNewlines, ih (List.not_mem_of_not_mem_cons h)]
    all_goals assumption
  | case4 => rfl

end Text

end PagePartials
