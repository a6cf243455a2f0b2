import PagePartials.Command.Run
import PagePartials.Proofs.Encoding.RoundTrip
import PagePartials.Proofs.Extraction.Reading
import PagePartials.Proofs.Extraction.Stopping

/-!
# What a run of the command has done

A run takes one of five courses. On four of them it never comes to a page: the settings are at
fault, the arguments are, help was asked for, or the log knows the name of the level for something
else. On the fifth it reads its page, and writes what that was split into. So the exit status tells
what has been done to the files: with 2, nothing; with 1, nothing if it was the page that could not
be read, and never a word on the output; with 0, all that was asked for, and the output lists it.

A page does not count as unreadable if its bytes are refused by the codec without a place in them.
Then the run breaks off and has no status, although it has done nothing either.

## Main definitions

* `Command.Course others env args fs outcome fs'`: a course of the command, and what comes of it
* `Extraction.WrittenFrom o input fs fs' e`: the page at `input` was read, split into `e`, and
  written out

## Main results

* `Extraction.report_eq`: what is told of an extraction, word by word
* `Command.run_course`: every run takes one of the courses
* `Command.run_effects`: what the exit status of a run tells, and how a page that cannot be read is
  told of
-/

namespace PagePartials

open PagePartials.Task FileSystem Extraction

/-- The page at a path was read, split into the extraction, and written out. -/
structure Extraction.WrittenFrom (o : Options) (input : Path) (fs fs' : FileSystem)
    (e : Extraction) : Prop where
  /-- The page was read, which left the files as they were, and then all was written in turn. -/
  wrote : ∃ t notices notices', Runs (readText input o.encoding) ([], fs) t ([], fs) ∧
    ofText t (some input.name) = (notices, .ok e) ∧
    Runs (write o e) (notices, fs) ((outputs o e).map Output.path) (notices', fs')
  /-- Each partial, and the index, is in its file, or the one that came there after it. -/
  holdsLast : ∀ p ∈ (outputs o e).map Output.path, HoldsLast fs' o.encoding (outputs o e) p
  /-- The other files are as they were. -/
  changes : Changes ((outputs o e).map Output.path) fs fs'

theorem Extraction.writtenFrom_of_runs {o : Options} {input : Path} {fs : FileSystem}
    {e : Extraction} {w' : Surroundings} (h : Runs (ofFile o input) ([], fs) e w') :
    WrittenFrom o input fs w'.2 e := by
  obtain ⟨t, notices, written, hread, he, hwritten⟩ := runs_ofFile h
  obtain ⟨rfl, hchanges, hholds⟩ := holdsLast_of_runs hwritten
  exact ⟨⟨t, notices, w'.1, hread, he, hwritten⟩, hholds, hchanges⟩

theorem Partial.createdLine_append (p : Partial) : p.createdLine ++ ['\n'] =
    "Created partial: ".toList ++ p.partialName ++ " (full path: ".toList ++ p.fullPath ++
      ")\n".toList := by
  have hend : ")\n".toList = [')'] ++ ['\n'] := by decide
  rw [hend]
  exact List.append_assoc _ [')'] ['\n']

/-- What is told of an extraction: a line for each partial, the listing, and the summary. -/
theorem Extraction.report_eq (e : Extraction) : e.report =
    (e.partials.flatMap fun p => "Created partial: ".toList ++ p.partialName ++
      " (full path: ".toList ++ p.fullPath ++ ")\n".toList) ++
      (e.sectionsTree ++ ['\n']) ++ (e.summary ++ ['\n']) := by
  rw [report, onLines, List.flatMap_append, List.flatMap_map, List.append_assoc]
  congr 1
  · exact List.flatMap_congr fun p _ => p.createdLine_append
  · rw [List.flatMap_cons, List.flatMap_cons, List.flatMap_nil, List.append_nil]

namespace Command

variable {others : Codecs} {env : Environment} {args : List Text} {fs fs' : FileSystem}
  {outcome : Outcome}

/-- The courses that a run can take, with what comes of it and what it leaves of the files. -/
inductive Course (others : Codecs) (env : Environment) (args : List Text) (fs : FileSystem) :
    Outcome → FileSystem → Prop
  | unsettled {f : Failure} (hsettings : Settings.ofEnvironment others env = .error f) :
      Course others env args fs (.ofFailure f) fs
  | misused {e : UsageError} (hargs : Request.ofArguments args = .error e) :
      Course others env args fs (.ofUsageError e) fs
  | helped (hargs : Request.ofArguments args = .ok .help) : Course others env args fs .ofHelp fs
  | unleveled {settings : Settings} {input : Text} {reason : NoLevel}
      (hsettings : Settings.ofEnvironment others env = .ok settings)
      (hargs : Request.ofArguments args = .ok (.split input))
      (hlevel : Level.ofName settings.levelName = .error reason) :
      Course others env args fs (.ofFailure (.noLevel reason)) fs
  | split {settings : Settings} {input : Text} {level : Level} {r : Except Failure Extraction}
      {notices : List Notice} {fs' : FileSystem}
      (hsettings : Settings.ofEnvironment others env = .ok settings)
      (hargs : Request.ofArguments args = .ok (.split input))
      (hfile : exec (ofFile settings.options (.ofText input)) ([], fs) = (r, notices, fs')) :
      Course others env args fs (.ofSplit level (r, notices)) fs'

theorem run_course (h : (run others env args : StateM FileSystem Outcome) fs = (outcome, fs')) :
    Course others env args fs outcome fs' := by
  unfold run at h
  cases hsettings : Settings.ofEnvironment others env with
  | error f =>
    rw [hsettings] at h
    obtain ⟨rfl, rfl⟩ := Prod.mk.inj h
    exact .unsettled hsettings
  | ok settings =>
    rw [hsettings] at h
    cases hargs : Request.ofArguments args with
    | error e =>
      rw [hargs] at h
      obtain ⟨rfl, rfl⟩ := Prod.mk.inj h
      exact .misused hargs
    | ok request =>
      rw [hargs] at h
      cases request with
      | help =>
        obtain ⟨rfl, rfl⟩ := Prod.mk.inj h
        exact .helped hargs
      | split input =>
        cases hlevel : Level.ofName settings.levelName with
        | error reason =>
          simp only [hlevel] at h
          obtain ⟨rfl, rfl⟩ := Prod.mk.inj h
          exact .unleveled hsettings hargs hlevel
        | ok level =>
          simp only [hlevel] at h
          obtain ⟨rfl, rfl⟩ := Prod.mk.inj h
          exact .split hsettings hargs rfl

/-- The failures that are reported: there is no reading a page, writing a file, or making the
directory of partials. -/
theorem isReported_iff {f : Failure} : f.isReported = true ↔ (∃ p r, f = .unreadable p r) ∨
    (∃ p fault, f = .unwritable p fault) ∨ ∃ p fault, f = .noDirectory p fault := by
  cases f <;> simp [Failure.isReported]

/-- A failure that leads to an exit status is a reported one, the status is 1, and nothing is said
on the output. -/
theorem ofSplit_error_of_exited {level : Level} {f : Failure} {notices : List Notice} {status : Nat}
    (h : (Outcome.ofSplit level (.error f, notices)).ending = .exited status) :
    f.isReported = true ∧ status = 1 ∧ (Outcome.ofSplit level (.error f, notices)).output = [] := by
  unfold Outcome.ofSplit at h ⊢
  dsimp only at h ⊢
  split at h
  next hreported =>
    rw [if_pos hreported]
    exact ⟨hreported, (Ending.exited.inj h).symm, rfl⟩
  next => exact nomatch h

/-- What comes of a page that the codec gives no text for. -/
theorem fails_ofFile_of_decode {o : Options} {input : Path} {w : Surroundings}
    (hp : '\x00' ∉ input.toText) (hencoding : '\x00' ∉ o.encoding.name) {codec : Codec}
    {bytes : Bytes} {e : DecodingError} (hcodec : o.encoding.codec = .ok codec)
    (hbytes : w.2.readFile input = .ok bytes) (he : codec.decode bytes = .error e) :
    (∀ e', Fails (ofFile o input) w (.unreadable input (.undecodable e')) w ↔
      e = .undecodable e') ∧
    ∀ message, Fails (ofFile o input) w (.refusedByCodec message) w ↔ e = .refused message := by
  cases e with
  | undecodable e =>
    have hread := fails_readText_of_undecodable hp hencoding hcodec hbytes he
    obtain ⟨hfails, -⟩ := fails_ofFile_of_readText hread
    simp [hfails.iff_eq]
  | refused message =>
    have hread := fails_readText_of_refused hp hencoding hcodec hbytes he
    obtain ⟨hfails, -⟩ := fails_ofFile_of_readText hread
    simp [hfails.iff_eq]

/-- **The outcome of a run tells what it has done.** Where a run exits with a status, that is 2
after arguments that cannot be understood and 0 after a request for help, and the files are as they
were. Otherwise a page was to be split. Then the status is 1, and nothing was said on the output:
the page could not be read, and the files are as they were, or a file could not be written, or the
directory of partials could not be made. Or the status is 0, the page was read, every partial and
the index were written, and the output has a line for each partial in the order they were written
in, and after them the listing and the summary.

However reading a page fails, the run on it fails in that way and leaves everything as it was. If
there is no getting at the bytes of the page, the failure says that the page cannot be read. If
there is, but the codec gives no text for them, the failure says so just if the codec tells a place
where they are none; if it refuses them as a whole, the failure is another one, which is not
reported. Of the encodings that are built in, only signed UTF-16 does that, to bytes without a
mark. -/
theorem run_effects (others : Codecs) (env : Environment) (args : List Text) (fs : FileSystem)
    (o : Options) (input : Path) (w : Surroundings) :
    (∀ (outcome : Outcome) (fs' : FileSystem),
      (run others env args : StateM FileSystem Outcome) fs = (outcome, fs') →
      ∀ status, outcome.ending = .exited status →
        (status = 2 ∧ fs' = fs ∧ ∃ e, Request.ofArguments args = .error e) ∨
        (status = 0 ∧ fs' = fs ∧ Request.ofArguments args = .ok .help) ∨
        ∃ settings page, Settings.ofEnvironment others env = .ok settings ∧
          Request.ofArguments args = .ok (.split page) ∧
          ((status = 1 ∧ outcome.output = [] ∧ ∃ f notices,
              Fails (ofFile settings.options (.ofText page)) ([], fs) f (notices, fs') ∧
              ((∃ p r, f = .unreadable p r ∧ fs' = fs) ∨ (∃ p fault, f = .unwritable p fault) ∨
                ∃ p fault, f = .noDirectory p fault)) ∨
            (status = 0 ∧ ∃ e, WrittenFrom settings.options (.ofText page) fs fs' e ∧
              outcome.output =
                (e.partials.flatMap fun p => "Created partial: ".toList ++ p.partialName ++
                  " (full path: ".toList ++ p.fullPath ++ ")\n".toList) ++
                  (e.sectionsTree ++ ['\n']) ++ (e.summary ++ ['\n'])))) ∧
    (∀ f w', Fails (readText input o.encoding) w f w' → Fails (ofFile o input) w f w' ∧ w' = w) ∧
    ('\x00' ∉ input.toText → '\x00' ∉ o.encoding.name →
      (∀ c, w.2.readFile input = .error c →
        Fails (ofFile o input) w (.unreadable input (.fault ⟨c, input⟩)) w) ∧
      ∀ codec bytes e, o.encoding.codec = .ok codec → w.2.readFile input = .ok bytes →
        codec.decode bytes = .error e →
        (∀ e', Fails (ofFile o input) w (.unreadable input (.undecodable e')) w ↔
          e = .undecodable e') ∧
        (∀ message, Fails (ofFile o input) w (.refusedByCodec message) w ↔
          e = .refused message) ∧
        ∀ charset message, Charset.ofName? o.encoding.name = some charset →
          (e = .refused message ↔ charset = .signedUtf16 ∧ ¬ [0xFF, 0xFE] <+: bytes ∧
            ¬ [0xFE, 0xFF] <+: bytes ∧ (∃ t, t ≠ [] ∧ Utf16.decode .little bytes = .ok t) ∧
            "UTF-16 stream does not start with BOM".toList = message)) := by
  refine ⟨?runs, fun f w' => fails_ofFile_of_readText, fun hp hencoding => ⟨?fault, ?bytes⟩⟩
  case runs =>
    intro outcome fs' h status hstatus
    -- On the courses that break off there is no status.
    cases run_course h with
    | unsettled => exact nomatch hstatus
    | unleveled => exact nomatch hstatus
    | misused hargs => exact .inl ⟨(Ending.exited.inj hstatus).symm, rfl, _, hargs⟩
    | helped hargs => exact .inr (.inl ⟨(Ending.exited.inj hstatus).symm, rfl, hargs⟩)
    | @split settings page level r notices _ hsettings hargs hfile =>
      refine .inr (.inr ⟨settings, page, hsettings, hargs, ?_⟩)
      cases r with
      | ok e =>
        exact .inr ⟨(Ending.exited.inj hstatus).symm, e, writtenFrom_of_runs hfile, e.report_eq⟩
      | error f =>
        obtain ⟨hreported, hending, houtput⟩ := ofSplit_error_of_exited hstatus
        refine .inl ⟨hending, houtput, f, notices, hfile, ?_⟩
        refine (isReported_iff.mp hreported).imp_left ?_
        rintro ⟨p, r, rfl⟩
        exact ⟨p, r, rfl, (Prod.mk.inj (eq_of_fails_unreadable hfile)).2⟩
  case fault =>
    intro c hc
    exact (fails_ofFile_of_readText (fails_readText_of_fault hp hencoding hc)).1
  case bytes =>
    intro codec bytes e hcodec hbytes he
    obtain ⟨hundecodable, hrefused⟩ := fails_ofFile_of_decode hp hencoding hcodec hbytes he
    refine ⟨hundecodable, hrefused, fun charset message hcharset => ?_⟩
    obtain rfl : charset.codec = codec :=
      Except.ok.inj ((o.encoding.codec_eq charset hcharset).symm.trans hcodec)
    have hlittle : Utf16.ByteOrder.little.mark = [0xFF, 0xFE] := by decide
    have hbig : Utf16.ByteOrder.big.mark = [0xFE, 0xFF] := by decide
    have hmessage : Utf16.unsigned = "UTF-16 stream does not start with BOM".toList := rfl
    rw [Charset.codec_decode] at he
    rw [← hlittle, ← hbig, ← hmessage, ← Charset.decode_eq_refused_iff, he, Except.error.injEq]

/-- The bytes of a page that has one section. -/
def pageBytes : Bytes := Utf8.encode "<!-- begin: a -->\n<!-- end: a -->\n".toList

/-- A file system with that page in it. -/
def withPage : FileSystem := ⟨[], [(["p".toList], .file pageBytes)]⟩

/-- Each two bytes of the page make a character. -/
theorem exists_decode_pageBytes : ∃ t, t ≠ [] ∧ Utf16.decode .little pageBytes = .ok t := by
  have heval : ((Utf16.decode .little pageBytes).toOption.any (· != [])) = true := by
    decide +kernel
  cases h : Utf16.decode .little pageBytes with
  | error e =>
    rw [h] at heval
    exact nomatch heval
  | ok t =>
    rw [h] at heval
    exact ⟨t, by simpa [Except.toOption] using heval, rfl⟩

/-- The output next to the page, in UTF-16 with a byte order mark. -/
def inSignedUtf16 : Options := { Options.standard with encoding := .builtIn "utf-16".toList }

/-- The run on that page exits with 0, and has written out what the page is split into. There is no
getting at a page of another name. Taken for UTF-16, the page is refused since it has no mark, and
that does not count as a page that cannot be read. -/
theorem run_effects_withPage :
    (∃ (outcome : Outcome) (fs' : FileSystem) (settings : Settings) (e : Extraction),
      (run .none [] ["p".toList] : StateM FileSystem Outcome) withPage = (outcome, fs') ∧
      outcome.ending = .exited 0 ∧
      WrittenFrom settings.options (.ofText "p".toList) withPage fs' e) ∧
    Fails (ofFile .standard (.ofText "q".toList)) ([], withPage)
      (.unreadable (.ofText "q".toList) (.fault ⟨.notFound, .ofText "q".toList⟩))
      ([], withPage) ∧
    Fails (ofFile inSignedUtf16 (.ofText "p".toList)) ([], withPage)
      (.refusedByCodec "UTF-16 stream does not start with BOM".toList) ([], withPage) := by
  refine ⟨?written, ?missing, ?refused⟩
  case written =>
    rcases hrun : (run .none [] ["p".toList] : StateM FileSystem Outcome) withPage with
      ⟨outcome, fs'⟩
    -- Evaluate the whole run.
    have hending : ((run .none [] ["p".toList] : StateM FileSystem Outcome) withPage).1.ending =
        .exited 0 := by
      decide +kernel
    rw [hrun] at hending
    rcases (run_effects .none [] ["p".toList] withPage .standard (.ofText "p".toList)
      ([], withPage)).1 outcome fs' hrun 0 hending with
      ⟨hstatus, -⟩ | ⟨-, -, hargs⟩ | ⟨settings, input, -, hargs, ⟨hstatus, -⟩ | ⟨-, e, he, -⟩⟩
    · exact absurd hstatus (by decide)
    · exact absurd (Except.ok.inj hargs) (by decide)
    · exact absurd hstatus (by decide)
    · obtain rfl : "p".toList = input := Request.split.inj (Except.ok.inj hargs)
      exact ⟨outcome, fs', settings, e, rfl, hending, he⟩
  case missing =>
    obtain ⟨-, -, hread⟩ := run_effects .none [] [] withPage .standard (.ofText "q".toList)
      ([], withPage)
    exact (hread (by decide) (by decide)).1 .notFound (by rfl)
  case refused =>
    obtain ⟨-, -, hread⟩ := run_effects .none [] [] withPage inSignedUtf16 (.ofText "p".toList)
      ([], withPage)
    have hname : Charset.ofName? inSignedUtf16.encoding.name = some .signedUtf16 := by
      decide +kernel
    have hrefused :
        Charset.signedUtf16.codec.decode pageBytes = .error (.refused Utf16.unsigned) := by
      rw [Charset.codec_decode, Charset.decode_eq_refused_iff]
      exact ⟨rfl, by decide +kernel, by decide +kernel, exists_decode_pageBytes, rfl⟩
    obtain ⟨-, hfails, -⟩ := (hread (by decide) (by decide)).2 Charset.signedUtf16.codec pageBytes
      (.refused Utf16.unsigned) (inSignedUtf16.encoding.codec_eq _ hname) (by rfl) hrefused
    exact (hfails Utf16.unsigned).mpr rfl

end Command

end PagePartials
