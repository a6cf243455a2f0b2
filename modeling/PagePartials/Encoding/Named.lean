import PagePartials.Encoding.Charset

/-!
# Encodings by name

An encoding is asked for by name, and the name stands for a codec. Some are built in. All others
come from outside, from whoever runs the program; where nobody brings any, their names are unknown.
There are names, too, that stand for ways from bytes to bytes and so for no codec.

## Main definitions

* `NoCodec`: why a name stands for no codec
* `Encoding`: a name and what it stands for
* `Encoding.ofName others n`: the encoding called `n`, given what names stand for that are not built
  in
* `Encoding.builtIn n`: the encoding called `n` where only those that are built in are known
* `Encoding.IsBuiltIn e`: the name of `e` stands for nothing else than what is built in
-/

namespace PagePartials

/-- Why a name stands for no codec. -/
inductive NoCodec where
  /-- It stands for nothing. -/
  | unknown
  /-- It stands for a way from bytes to bytes. -/
  | notOfTexts
  deriving DecidableEq, Repr

/-- Why the name stands for no codec, as it is shown. -/
def NoCodec.message (name : Text) : NoCodec → Text
  | unknown => "unknown encoding: ".toList ++ name
  | notOfTexts =>
    '\'' :: name ++
      "' is not a text encoding; use codecs.open() to handle arbitrary codecs".toList

/-- What names stand for. -/
abbrev Codecs := Text → Except NoCodec Codec

/-- Where nothing is known that names stand for. -/
def Codecs.none : Codecs := fun _ => .error .unknown

/-- An encoding as it is asked for: a name, and the codec that it stands for, if it does. What is
built in has its names for itself. -/
structure Encoding where
  name : Text
  codec : Except NoCodec Codec
  codec_eq : ∀ charset, Charset.ofName? name = some charset → codec = .ok charset.codec

namespace Encoding

/-- The proper names of ways from bytes to bytes, and their other names. -/
def notOfTexts : List (String × List String) :=
  [("base64_codec", ["base64", "base_64"]), ("bz2_codec", ["bz2"]), ("hex_codec", ["hex"]),
    ("quopri_codec", ["quopri", "quoted_printable", "quotedprintable"]), ("rot_13", ["rot13"]),
    ("uu_codec", ["uu"]), ("zlib_codec", ["zip", "zlib"])]

/-- Whether a name stands for a way from bytes to bytes. -/
def isNotOfTexts (name : Text) : Bool :=
  notOfTexts.any fun n => Charset.isNameAmong n.1 n.2 (Charset.plainName name)

/-- The encoding of the given name, with others for the names that stand for nothing here. -/
def ofName (others : Codecs) (name : Text) : Encoding where
  name := name
  codec :=
    match Charset.ofName? name with
    | some charset => .ok charset.codec
    | none =>
      if isNotOfTexts name then .error .notOfTexts else others name
  codec_eq charset h := by
    simp only [h]

/-- The encoding of the given name where nothing else is known than what is built in. -/
def builtIn (name : Text) : Encoding := ofName .none name

/-- Whether the codec, if the name stands for one, is that of an encoding that is built in. -/
def IsBuiltIn (e : Encoding) : Prop :=
  ∀ codec, e.codec = .ok codec → ∃ charset : Charset, codec = charset.codec

/-- Whatever comes from outside, what is called like an encoding that is built in is this one. -/
theorem isBuiltIn_of_ofName? {e : Encoding} {charset : Charset}
    (h : Charset.ofName? e.name = some charset) : e.IsBuiltIn :=
  fun _ hcodec => ⟨charset, Except.ok.inj (hcodec.symm.trans (e.codec_eq charset h))⟩

theorem isBuiltIn_builtIn (name : Text) : (builtIn name).IsBuiltIn := by
  cases hname : Charset.ofName? name with
  | some charset => exact isBuiltIn_of_ofName? hname
  | none =>
    -- Then the name stands for no codec, since nothing comes from outside.
    intro codec h
    simp only [builtIn, ofName, hname] at h
    split at h
    · exact nomatch h
    · exact nomatch h

end Encoding

end PagePartials
