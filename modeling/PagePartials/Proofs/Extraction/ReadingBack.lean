import PagePartials.Proofs.Encoding.RoundTrip
import PagePartials.Proofs.Extraction.Reading

/-!
# Reading back what was written

A text that was written to a file can be read from it again, at the path and in the encoding that
it was written with, whatever the path is, if the encoding is one that is built in. It comes back as
it was, but for its newlines, which are unified as in every text that is read.

## Main results

* `Task.runs_readText_unifyNewlines`: a text that was written reads back with newlines unified
* `Task.runs_readText_of_writeText`: a text that was written reads back
-/

namespace PagePartials

namespace Task

variable {w w' : Surroundings} {u : Unit} {p : Path} {t : Text} {encoding : Encoding}

/-- What was written reads back with its newlines unified. -/
theorem runs_readText_unifyNewlines (he : encoding.IsBuiltIn)
    (h : Runs (writeText p t encoding) w u w') :
    Runs (readText p encoding) w' t.unifyNewlines w' := by
  obtain ⟨hencoding, hp, bytes, fs, hbytes, -, hwrite, -⟩ := runs_writeText h
  obtain ⟨codec, hcodec, hencode⟩ := bytesOf_eq_ok_iff.mp hbytes
  obtain ⟨charset, rfl⟩ := he codec hcodec
  exact runs_readText hp hencoding hcodec (FileSystem.readFile_writeFile hwrite)
    (Charset.decode_encode (Charset.codec_encode_eq_ok_iff.mp hencode))

/-- **What was written reads back.** When a text was written to a file, whichever that is and in
whichever encoding that is built in, reading the file in this encoding gives the text with one
newline for each carriage return and newline, and then for each carriage return that is left. So it
gives the text itself if that has no carriage return. Reading leaves everything as it is. -/
theorem runs_readText_of_writeText (he : encoding.IsBuiltIn)
    (h : Runs (writeText p t encoding) w u w') :
    Runs (readText p encoding) w'
        (Text.replace '\r' '\n' (Text.replaceWord ['\r', '\n'] ['\n'] t)) w' ∧
      ('\r' ∉ t → Runs (readText p encoding) w' t w') := by
  have hread := runs_readText_unifyNewlines he h
  constructor
  · rw [← Text.unifyNewlines_eq_replace]
    exact hread
  · intro ht
    rwa [Text.unifyNewlines_of_notMem ht] at hread

/-- A text that starts with the character of the byte order mark and has carriage returns before
newlines, before each other and alone. -/
def markedLines : Text := "\ufeffa\r\nb\r\r\n\rc".toList

/-- A file in a directory that is still to be made. -/
def newFile : Path := .ofText "made/new".toList

/-- UTF-8 with a byte order mark in front. -/
def signed : Encoding := .builtIn "utf-8-sig".toList

/-- Both that text and the empty one are written with a byte order mark in front, and read back. -/
theorem runs_readText_markedLines : signed.IsBuiltIn ∧
    (∃ w', Runs (writeText newFile markedLines signed) ([], .emptyAt []) () w' ∧
      Runs (readText newFile signed) w' "\ufeffa\nb\n\n\nc".toList w') ∧
    ∃ w', Runs (writeText newFile [] signed) ([], .emptyAt []) () w' ∧
      '\r' ∉ ([] : Text) ∧ Runs (readText newFile signed) w' [] w' := by
  have hsigned : signed.IsBuiltIn := Encoding.isBuiltIn_builtIn _
  have hmarked : ((writeText newFile markedLines signed).exec ([], .emptyAt [])).1.toBool =
      true := by
    decide +kernel
  have hempty : ((writeText newFile [] signed).exec ([], .emptyAt [])).1.toBool = true := by
    decide +kernel
  have hunified : Text.replace '\r' '\n' (Text.replaceWord ['\r', '\n'] ['\n'] markedLines) =
      "\ufeffa\nb\n\n\nc".toList := by
    decide +kernel
  obtain ⟨_, w₁, h₁⟩ := exists_runs_iff.mpr hmarked
  obtain ⟨_, w₂, h₂⟩ := exists_runs_iff.mpr hempty
  refine ⟨hsigned, ⟨w₁, h₁, ?_⟩, w₂, h₂, List.not_mem_nil, ?_⟩
  · rw [← hunified]
    exact (runs_readText_of_writeText hsigned h₁).1
  · exact (runs_readText_of_writeText hsigned h₂).2 List.not_mem_nil

end Task

end PagePartials
