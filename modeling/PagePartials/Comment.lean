import PagePartials.Text.Blank

/-!
# Comments

The text of the first comment of a line. A comment runs from `<!--` to `-->`; its body is never
empty and never reaches past the end of a line, and blanks around it are left out as far as a body
remains. So `<!-- -->` is a comment whose body is a single blank, the body of `<!-- --> a -->` is
`--> a`, and `<!---->` is no comment at all.

A comment opens at the first `<!--` from which one can be read to its end, and ends as early as it
can once the blanks after the opening are passed over.

## Main definitions

* `Comment.body? t`: the shortest body at the start of `t` that a closing follows
* `Comment.inside? t`: the body of a comment whose opening stands right before `t`
* `Comment.find? t`: the body of the first comment of `t`
* `Comment.text? t`: the same body, trimmed

## Main results

* `Comment.inside?_cons`: a blank is kept only where passing over it leaves no body
* `Comment.text?_eq`: a text without a closing has no comment, so that it need not be searched
-/

namespace PagePartials

namespace Comment

/-- What opens a comment. -/
def opening : Text := "<!--".toList

/-- What closes a comment. -/
def closing : Text := "-->".toList

/-- Whether a comment closes here, perhaps after blanks. -/
def closes (t : Text) : Bool := closing.isPrefixOf t.trimStart

/-- The shortest beginning of the text, of one character at least and without a newline, that a
closing follows. -/
def body? : Text → Option Text
  | [] => none
  | c :: t =>
    if c = '\n' then none
    else if closes t then some [c]
    else (body? t).map (c :: ·)

/-- The body of a comment whose opening stands right before the text. As many of the leading blanks
are passed over as leave a body; where nothing else is left for one, it is the last of them, a
newline excepted. -/
def inside? : Text → Option Text
  | [] => none
  | c :: t =>
    if isBlank c then (inside? t).or (if c ≠ '\n' ∧ closes t then some [c] else none)
    else body? (c :: t)

theorem body?_eq_none_of_inside? {t : Text} (h : inside? t = none) : body? t = none := by
  induction t with
  | nil => rfl
  | cons c t ih =>
    rw [inside?] at h
    split at h
    · obtain ⟨h, hc⟩ := Option.or_eq_none_iff.mp h
      simp only [ite_eq_right_iff] at hc
      simp only [body?, ih h]
      grind
    · exact h

/-- A blank is kept only where passing over it leaves no body. -/
theorem inside?_cons (c : Char) (t : Text) :
    inside? (c :: t) = if isBlank c then (inside? t).or (body? (c :: t)) else body? (c :: t) := by
  rw [inside?]
  split
  · cases h : inside? t with
    | some b => rfl
    | none =>
      simp only [Option.none_or, body?, body?_eq_none_of_inside? h]
      grind
  · rfl

/-- The body of the first comment of the text. -/
def find? : Text → Option Text
  | [] => none
  | c :: t => ((Text.after? opening (c :: t)).bind inside?).or (find? t)

/-- The trimmed body of the first comment of the text. There is none to look for unless a closing
stands somewhere. -/
def text? (t : Text) : Option Text :=
  if Text.occursIn closing t then (find? t).map Text.trim else none

theorem closing_infix_of_closes {t : Text} (h : closes t = true) : closing <:+: t :=
  (List.isPrefixOf_iff_prefix.mp h).isInfix.trans (List.dropWhile_suffix _).isInfix

theorem closing_infix_of_body? {t b : Text} (h : body? t = some b) : closing <:+: t := by
  induction t generalizing b with
  | nil => simp [body?] at h
  | cons c t ih =>
    rw [body?] at h
    split at h
    · simp at h
    · split at h
      next hc => exact (closing_infix_of_closes hc).trans (List.suffix_cons c t).isInfix
      next =>
        obtain ⟨b, hb, -⟩ := Option.map_eq_some_iff.mp h
        exact (ih hb).trans (List.suffix_cons c t).isInfix

theorem closing_infix_of_inside? {t b : Text} (h : inside? t = some b) : closing <:+: t := by
  induction t generalizing b with
  | nil => simp [inside?] at h
  | cons c t ih =>
    rw [inside?_cons] at h
    split at h
    · rcases Option.or_eq_some_iff.mp h with h | ⟨-, h⟩
      · exact (ih h).trans (List.suffix_cons c t).isInfix
      · exact closing_infix_of_body? h
    · exact closing_infix_of_body? h

theorem closing_infix_of_find? {t b : Text} (h : find? t = some b) : closing <:+: t := by
  induction t generalizing b with
  | nil => simp [find?] at h
  | cons c t ih =>
    rw [find?] at h
    rcases Option.or_eq_some_iff.mp h with h | ⟨-, h⟩
    · obtain ⟨r, hr, hb⟩ := Option.bind_eq_some_iff.mp h
      rw [Text.after?_eq_some_iff.mp hr]
      exact (closing_infix_of_inside? hb).trans (List.suffix_append opening r).isInfix
    · exact (ih h).trans (List.suffix_cons c t).isInfix

/-- The trimmed body, whether or not a closing was looked for. -/
theorem text?_eq (t : Text) : text? t = (find? t).map Text.trim := by
  rw [text?]
  split
  · rfl
  next h =>
    cases hf : find? t with
    | none => rfl
    | some b => exact absurd (Text.occursIn_iff.mpr (closing_infix_of_find? hf)) h

example : text? "<!-- -->".toList = some [] := by decide
example : text? "<!-- --> a -->".toList = some "--> a".toList := by decide
example : text? "<!---->".toList = none := by decide

end Comment

end PagePartials
