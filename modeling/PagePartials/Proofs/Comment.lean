import PagePartials.Proofs.Marker
import PagePartials.Proofs.Text.Cutting

/-!
# Comments found by one scan

The comment of a text is defined by trying: every opening, after it every number of blanks, and
then every body, the shortest first. On a line one scan from left to right does as well. Behind the
first opening it passes over the blanks and one character more, and the comment goes up to the first
closing from there on. If no closing follows, one that stands right behind some blanks ends a
comment without a text. What comes later on the line, other openings among it, plays no part.

So a name that has no closing in it is read from a comment of any of the three worded forms just as
it was written there, whatever stands before and behind the comment.

## Main definitions

* `Comment.scan? t`: the text of the comment that one scan of `t` finds
* `Comment.line before s w s' n s'' behind`: a comment of word `w` and name `n` on a line

## Main results

* `Comment.map_trim_inside?`: what the scan finds behind an opening
* `Comment.find?_eq_of_cut?`: the first opening goes before the others
* `Comment.text?_eq_scan?`: on a line the scan finds what trying finds
* `Marker.ofLine?_scanned`: and so the names in comments that start with a word are read
-/

namespace PagePartials

/-! ## What a scan finds -/

namespace Comment

variable {t u v b r s x n before behind : Text} {c : Char}

theorem isUnbordered_opening : opening.IsUnbordered := by decide

theorem isUnbordered_closing : closing.IsUnbordered := by decide

/-- The text of the comment behind an opening: the blanks and one character more are passed over,
and it goes up to the first closing from there on. If there is none, a closing right behind some
blanks ends a comment without a text. -/
def scanInside? (r : Text) : Option Text :=
  match r.trimStart with
  | [] => none
  | c :: u =>
    ((Text.cut? closing u).map fun p => Text.trimEnd (c :: p.1)).or
      (if r.head?.any isBlank && closes r then some [] else none)

/-- The text of the comment that one scan from left to right finds behind the first opening. -/
def scan? (t : Text) : Option Text := (Text.cut? opening t).bind fun p => scanInside? p.2

example : scan? "<p><!--  a <!-- b -- > c --> -->\n".toList = some "a <!-- b -- > c".toList := by
  decide
example : scan? "<!-- -->".toList = some [] := by decide
example : scan? "<!---->".toList = none := by decide

/-! ### Bodies -/

/-- Where a comment closes, only blanks stand before the first closing. -/
theorem isBlank_of_closes (h : closes u = true) (hcut : Text.cut? closing u = some (b, r)) :
    b.isBlank = true := by
  obtain ⟨r', hr'⟩ := List.isPrefixOf_iff_prefix.mp h
  have hu : u = u.takeWhile isBlank ++ (closing ++ r') := by
    rw [hr']
    exact List.takeWhile_append_dropWhile.symm
  obtain ⟨hb, hleast⟩ := Text.cut?_eq_some_iff.mp hcut
  have hpre : b <+: u.takeWhile isBlank :=
    List.prefix_of_prefix_length_le ⟨_, hb.symm⟩ (List.takeWhile_prefix _) (hleast _ _ hu)
  simp only [Text.isBlank, List.all_eq_true]
  exact fun c hc => List.mem_takeWhile_imp (hpre.subset hc)

/-- The shortest body goes up to the first closing, but for the blanks before it. -/
theorem exists_body? (hcut : Text.cut? closing u = some (b, r)) (hn : '\n' ∉ c :: b) :
    ∃ x, body? (c :: u) = some (c :: x) ∧ Text.trimEnd (c :: x) = Text.trimEnd (c :: b) := by
  induction u generalizing c b with
  | nil => exact nomatch hcut
  | cons d v ih =>
    have hc : c ≠ '\n' := fun hc => hn (hc ▸ List.mem_cons_self)
    by_cases hcl : closes (d :: v) = true
    · refine ⟨[], by rw [body?, if_neg hc, if_pos hcl], ?_⟩
      exact (Text.trimEnd_append_of_isBlank (isBlank_of_closes hcl hcut) [c]).symm
    · have hafter : Text.after? closing (d :: v) = none := by
        rw [Option.eq_none_iff_forall_ne_some]
        intro r' hr'
        rw [Text.after?_eq_some_iff.mp hr'] at hcl
        exact hcl rfl
      rw [Text.cut?_cons_of_eq_none hafter] at hcut
      obtain ⟨⟨b', r'⟩, hcut', heq⟩ := Option.map_eq_some_iff.mp hcut
      obtain ⟨rfl, rfl⟩ := Prod.mk.inj heq
      obtain ⟨x, hx, htrim⟩ := ih hcut' (List.not_mem_of_not_mem_cons hn)
      refine ⟨d :: x, ?_, Text.trimEnd_cons_congr htrim c⟩
      rw [body?, if_neg hc, if_neg hcl, hx]
      rfl

theorem closing_infix_of_body?_cons (h : body? (c :: t) = some b) : closing <:+: t := by
  rw [body?] at h
  split at h
  · exact absurd h.symm (Option.some_ne_none b)
  · split at h
    next hcl => exact closing_infix_of_closes hcl
    next =>
      obtain ⟨b', hb', -⟩ := Option.map_eq_some_iff.mp h
      exact closing_infix_of_body? hb'

/-! ### Behind an opening -/

theorem trimStart_cons_of_isBlank (hc : isBlank c = true) (t : Text) :
    Text.trimStart (c :: t) = t.trimStart :=
  List.dropWhile_cons_of_pos hc

theorem scanInside?_of_isBlank (hc : isBlank c = true) (t : Text) :
    scanInside? (c :: t) = (scanInside? t).or (if closes t then some [] else none) := by
  have hcloses : closes (c :: t) = closes t := by rw [closes, closes, trimStart_cons_of_isBlank hc]
  rw [scanInside?, scanInside?, hcloses, trimStart_cons_of_isBlank hc, List.head?_cons,
    Option.any_some, hc, Bool.true_and]
  cases htrim : t.trimStart with
  | nil =>
    have hno : closes t = false := by rw [closes, htrim]; rfl
    rw [hno]
    rfl
  | cons d u =>
    -- Blanks before the one that is left out do not matter.
    rw [Option.or_assoc]
    by_cases hcl : closes t = true <;> by_cases hblank : t.head?.any isBlank = true <;>
      simp [hcl, hblank]

theorem scanInside?_of_not_isBlank (hc : isBlank c = false) (t : Text) :
    scanInside? (c :: t) = (Text.cut? closing t).map fun p => Text.trimEnd (c :: p.1) := by
  have htrim : Text.trimStart (c :: t) = c :: t := List.dropWhile_cons_of_neg (by simp [hc])
  rw [scanInside?, htrim]
  simp [hc]

/-- **Behind an opening** of a line the scan finds what trying finds. -/
theorem map_trim_inside? (h : '\n' ∉ r.dropLast) : (inside? r).map Text.trim = scanInside? r := by
  -- By induction on the blanks behind the opening.
  induction r with
  | nil => rfl
  | cons c t ih =>
    have hline : t ≠ [] → '\n' ∉ c :: t.dropLast := fun ht =>
      List.dropLast_cons_of_ne_nil ht ▸ h
    by_cases hc : isBlank c = true
    · have hrest : (inside? t).map Text.trim = scanInside? t := by
        by_cases ht : t = []
        · rw [ht]
          rfl
        · exact ih (List.not_mem_of_not_mem_cons (hline ht))
      have hlast : (if c ≠ '\n' ∧ closes t then some [c] else none : Option Text).map Text.trim =
          if closes t then some [] else none := by
        by_cases hcl : closes t = true
        · have ht : t ≠ [] := by
            rintro rfl
            exact nomatch hcl
          have hne : c ≠ '\n' := fun hcn => hline ht (hcn ▸ List.mem_cons_self)
          have hblank : Text.trim [c] = [] := by simp [Text.trim, Text.trimStart, Text.trimEnd, hc]
          rw [if_pos ⟨hne, hcl⟩, if_pos hcl, Option.map_some, hblank]
        · rw [if_neg (fun hcl' => hcl hcl'.2), if_neg hcl, Option.map_none]
      rw [inside?, if_pos hc, scanInside?_of_isBlank hc, ← hrest, ← hlast, Option.map_or]
    · rw [inside?, if_neg hc, scanInside?_of_not_isBlank (by simpa using hc)]
      cases hcut : Text.cut? closing t with
      | some p =>
        obtain ⟨b, r⟩ := p
        have ht := Text.eq_append_of_cut? hcut
        have hn : '\n' ∉ c :: b := by
          have hpre : c :: b <+: (c :: t).dropLast :=
            List.prefix_of_prefix_length_le (ht ▸ ⟨closing ++ r, rfl⟩) (List.dropLast_prefix _)
              (by simp [ht, closing])
          exact fun hmem => h (hpre.subset hmem)
        obtain ⟨x, hx, htrim⟩ := exists_body? hcut hn
        rw [hx, Option.map_some, Option.map_some, Text.trim_cons (by simpa using hc), htrim]
      | none =>
        have hbody : body? (c :: t) = none := by
          rw [Option.eq_none_iff_forall_ne_some]
          exact fun b hb => Text.cut?_eq_none_iff.mp hcut (closing_infix_of_body?_cons hb)
        rw [hbody]
        rfl

/-! ### The first opening -/

/-- The first opening goes before the others. -/
theorem find?_eq_of_cut? (h : Text.cut? opening t = some (b, r)) :
    find? t = (inside? r).or (find? r) := by
  induction t generalizing b with
  | nil => exact nomatch h
  | cons c t ih =>
    cases ha : Text.after? opening (c :: t) with
    | some r' =>
      obtain ⟨-, rfl⟩ : [] = b ∧ r' = r := by simpa [Text.cut?, ha] using h
      -- No other opening starts within this one.
      have ht : t = '!' :: '-' :: '-' :: r' := (List.cons.inj (Text.after?_eq_some_iff.mp ha)).2
      have hrest : find? t = find? r' := by
        rw [ht]
        rfl
      rw [find?, ha, hrest]
      rfl
    | none =>
      rw [Text.cut?_cons_of_eq_none ha] at h
      obtain ⟨⟨b', r'⟩, hcut, heq⟩ := Option.map_eq_some_iff.mp h
      obtain ⟨-, rfl⟩ := Prod.mk.inj heq
      rw [find?, ha, ih hcut]
      rfl

theorem find?_trimStart (r : Text) : find? (Text.trimStart r) = find? r := by
  induction r with
  | nil => rfl
  | cons c t ih =>
    by_cases hc : isBlank c = true
    · have hafter : Text.after? opening (c :: t) = none := by
        have hne : '<' ≠ c := by
          rintro rfl
          exact absurd hc (by decide)
        exact if_neg hne
      rw [trimStart_cons_of_isBlank hc, ih, find?, hafter]
      rfl
    · rw [Text.trimStart, List.dropWhile_cons_of_neg hc]

theorem closing_infix_of_find?_cons (h : find? (c :: t) = some b) : closing <:+: t := by
  rw [find?] at h
  rcases Option.or_eq_some_iff.mp h with h | ⟨-, h⟩
  · obtain ⟨r, hr, hb⟩ := Option.bind_eq_some_iff.mp h
    obtain ⟨-, rfl⟩ := List.cons.inj (Text.after?_eq_some_iff.mp hr)
    exact (closing_infix_of_inside? hb).trans (List.suffix_append ['!', '-', '-'] r).isInfix
  · exact closing_infix_of_find? h

/-- Where the first opening of a line opens no comment, no later one does. -/
theorem find?_eq_none_of_inside? (hr : '\n' ∉ r.dropLast) (h : inside? r = none) :
    find? r = none := by
  rw [← find?_trimStart, Option.eq_none_iff_forall_ne_some]
  intro b hb
  have hscan : scanInside? r = none := by rw [← map_trim_inside? hr, h, Option.map_none]
  rw [scanInside?] at hscan
  cases htrim : Text.trimStart r with
  | nil =>
    rw [htrim] at hb
    exact nomatch hb
  | cons c u =>
    rw [htrim] at hb hscan
    obtain ⟨hcut, -⟩ := Option.or_eq_none_iff.mp hscan
    exact Text.cut?_eq_none_iff.mp (Option.map_eq_none_iff.mp hcut) (closing_infix_of_find?_cons hb)

/-- **The comment of a line** is the one that the scan finds. -/
theorem text?_eq_scan? (h : '\n' ∉ t.dropLast) : text? t = scan? t := by
  rw [text?_eq, scan?]
  cases hcut : Text.cut? opening t with
  | none =>
    have hfind : find? t = none := by
      rw [Option.eq_none_iff_forall_ne_some]
      exact fun b hb => Text.cut?_eq_none_iff.mp hcut (opening_infix_of_find? hb)
    rw [hfind]
    rfl
  | some p =>
    obtain ⟨b, r⟩ := p
    have hr : '\n' ∉ r.dropLast := by
      by_cases hnil : r = []
      · simp [hnil]
      · rw [Text.eq_append_of_cut? hcut, ← List.append_assoc,
          List.dropLast_append_of_ne_nil hnil] at h
        exact fun hmem => h (List.mem_append_right _ hmem)
    rw [find?_eq_of_cut? hcut, Option.bind_some, ← map_trim_inside? hr]
    cases hin : inside? r with
    | some x => rfl
    | none => rw [find?_eq_none_of_inside? hr hin, Option.none_or]

/-! ## Comments of a word and a name -/

/-- A line with a comment: what stands before it, the word that it starts with and the name behind
that, blanks around both, and what stands behind the comment. -/
def line (before s word s' name s'' behind : Text) : Text :=
  before ++ (opening ++ (s ++ (word ++ (s' ++ (name ++ (s'' ++ (closing ++ behind)))))))

/-- Whether a comment can start with the text: there are no blanks around it, and no character of a
closing but the last, nor a newline, in it. -/
structure IsWord (w : Text) : Prop where
  ne_nil : w ≠ []
  trim_eq : w.trim = w
  hyphen_notMem : '-' ∉ w
  newline_notMem : '\n' ∉ w

theorem inside?_append_of_isBlank (hs : s.isBlank = true) (h : inside? t = some b) :
    inside? (s ++ t) = some b := by
  induction s with
  | nil => exact h
  | cons c s ih =>
    obtain ⟨hc, hs⟩ : isBlank c = true ∧ Text.isBlank s = true := by simpa [Text.isBlank] using hs
    rw [List.cons_append, inside?, if_pos hc, ih hs, Option.some_or]

/-- Neither text without hyphens before nor blanks behind complete a closing. -/
theorem not_closing_infix_append {p : Text} (hp : '-' ∉ p) (hs : s.isBlank = true)
    (hn : ¬ closing <:+: n) : ¬ closing <:+: p ++ (n ++ s) := by
  intro h
  have hgt : '>' ∉ s.reverse := fun hmem =>
    Text.notMem_of_isBlank hs (by decide) (List.mem_reverse.mp hmem)
  have h' : closing <:+: n ++ s := Text.infix_of_infix_append hp h
  rw [← List.reverse_infix, List.reverse_append] at h'
  have h'' : closing.reverse <:+: n.reverse := Text.infix_of_infix_append hgt h'
  exact hn (List.reverse_infix.mp h'')

/-- So the first closing is the one that is put behind them. -/
theorem cut?_closing_append {p : Text} (hp : '-' ∉ p) (hs : s.isBlank = true)
    (hn : ¬ closing <:+: n) (r : Text) :
    Text.cut? closing (p ++ (n ++ (s ++ (closing ++ r)))) = some (p ++ (n ++ s), r) := by
  have hcut := Text.cut?_append isUnbordered_closing (not_closing_infix_append hp hs hn) r
  simpa only [List.append_assoc] using hcut

/-- Behind a word, trimming at the end leaves the name with nothing but blanks before it. -/
theorem exists_trimEnd_append {word s' s'' : Text} (hw : word.trim = word)
    (hs' : s'.isBlank = true) (hs'' : s''.isBlank = true) (hn : n.trim = n) :
    ∃ z, Text.trimEnd (word ++ (s' ++ (n ++ s''))) = word ++ z ∧ z.trim = n := by
  have hword := (Text.trimStart_eq_of_trim_eq hw).2
  by_cases hnil : n = []
  · subst hnil
    have hblank : Text.isBlank (s' ++ s'') = true := by simp [hs', hs'']
    exact ⟨[], by rw [List.nil_append, Text.trimEnd_append_of_isBlank hblank, hword,
      List.append_nil], rfl⟩
  · have hend := (Text.trimStart_eq_of_trim_eq hn).2
    refine ⟨s' ++ n, ?_, Text.trim_append hs' hn⟩
    calc Text.trimEnd (word ++ (s' ++ (n ++ s'')))
        = Text.trimEnd (word ++ (s' ++ n) ++ s'') := by simp only [List.append_assoc]
      _ = Text.trimEnd (word ++ s' ++ n) := by
          rw [Text.trimEnd_append_of_isBlank hs'', List.append_assoc]
      _ = word ++ s' ++ n := by rw [Text.trimEnd_append (by rwa [hend]), hend]
      _ = word ++ (s' ++ n) := List.append_assoc ..

/-- The comment of such a line starts with the word, and the name is what trimming leaves of the
rest. -/
theorem exists_text?_line {word s' s'' : Text} (hword : IsWord word)
    (hbefore : ¬ opening <:+: before) (hs : s.isBlank = true)
    (hs' : s'.isBlank = true ∧ '\n' ∉ s') (hs'' : s''.isBlank = true ∧ '\n' ∉ s'')
    (hn : n.trim = n) (hnewline : '\n' ∉ n) (hclosing : ¬ closing <:+: n) :
    ∃ z, text? (line before s word s' n s'' behind) = some (word ++ z) ∧ z.trim = n := by
  obtain ⟨z, hz, htrim⟩ := exists_trimEnd_append hword.trim_eq hs'.1 hs''.1 hn
  refine ⟨z, ?_, htrim⟩
  obtain ⟨hne, hw, hhyphen, hline⟩ := hword
  obtain ⟨c, w, rfl⟩ := List.exists_cons_of_ne_nil hne
  have hc : isBlank c = false := Text.isBlank_of_trim_cons_eq hw
  -- The first closing is the one behind the name and the blanks, and a body goes up to it.
  have hhyphen' : '-' ∉ w ++ s' := by
    rw [List.mem_append, not_or]
    exact ⟨List.not_mem_of_not_mem_cons hhyphen, Text.notMem_of_isBlank hs'.1 (by decide)⟩
  have hcut : Text.cut? closing (w ++ (s' ++ (n ++ (s'' ++ (closing ++ behind))))) =
      some (w ++ (s' ++ (n ++ s'')), behind) := by
    simpa only [List.append_assoc] using cut?_closing_append hhyphen' hs''.1 hclosing behind
  have hbody : '\n' ∉ c :: (w ++ (s' ++ (n ++ s''))) := by
    simpa [hs'.2, hs''.2, hnewline] using hline
  obtain ⟨x, hx, hxtrim⟩ := exists_body? hcut hbody
  have hinside : inside? (s ++ (c :: (w ++ (s' ++ (n ++ (s'' ++ (closing ++ behind))))))) =
      some (c :: x) :=
    inside?_append_of_isBlank hs (by rw [inside?, if_neg (by simp [hc]), hx])
  rw [text?_eq, line, find?_eq_of_cut? (Text.cut?_append isUnbordered_opening hbefore _)]
  simp only [List.cons_append] at hinside hz ⊢
  rw [hinside, Option.some_or, Option.map_some, Text.trim_cons hc, hxtrim, hz]

end Comment

/-! ## Markers -/

namespace Marker

open Comment

theorem isWord_beginWord : IsWord beginWord := ⟨by decide, by decide, by decide, by decide⟩

theorem isWord_endWord : IsWord endWord := ⟨by decide, by decide, by decide, by decide⟩

theorem isWord_endOfWord : IsWord endOfWord := ⟨by decide, by decide, by decide, by decide⟩

theorem ofComment?_beginWord (z : Text) : ofComment? (beginWord ++ z) = some (begins z.trim) := by
  rw [ofComment?, Text.after?_append]

theorem ofComment?_endWord (z : Text) : ofComment? (endWord ++ z) = some (ends z.trim) := by
  have hbegin : Text.after? beginWord (endWord ++ z) = none := rfl
  rw [ofComment?, Text.after?_append, hbegin]

theorem ofComment?_endOfWord (z : Text) : ofComment? (endOfWord ++ z) = some (ends z.trim) := by
  have hbegin : Text.after? beginWord (endOfWord ++ z) = none := rfl
  have hend : Text.after? endWord (endOfWord ++ z) = none := rfl
  rw [ofComment?, Text.after?_append, hbegin, hend]

/-- **The comment of a line is found by one scan**, and a name written in a marker is read from it.
On a line, with its newline or without, the comment is the one that the scan finds behind the first
opening, or there is none. So behind any text without an opening, and before any text at all, a
comment that starts with one of the three words is a marker with the name that stands behind the
word, if that has no blank at its ends and no newline or closing in it, and nothing but blanks stand
around it and the word. -/
theorem ofLine?_scanned :
    (∀ t : Text, '\n' ∉ t.dropLast → text? t = scan? t) ∧
    ∀ before s s' n s'' behind : Text, ¬ opening <:+: before →
      (s.isBlank = true ∧ '\n' ∉ s) → (s'.isBlank = true ∧ '\n' ∉ s') →
      (s''.isBlank = true ∧ '\n' ∉ s'') → n.trim = n → '\n' ∉ n → ¬ closing <:+: n →
      ofLine? (line before s beginWord s' n s'' behind) = some (begins n) ∧
        ofLine? (line before s endWord s' n s'' behind) = some (ends n) ∧
        ofLine? (line before s endOfWord s' n s'' behind) = some (ends n) := by
  refine ⟨fun t ht => text?_eq_scan? ht, ?_⟩
  intro before s s' n s'' behind hbefore hs hs' hs'' hn hnewline hclosing
  have hread {word : Text} (hword : IsWord word) :
      ∃ z, text? (line before s word s' n s'' behind) = some (word ++ z) ∧ z.trim = n :=
    exists_text?_line hword hbefore hs.1 hs' hs'' hn hnewline hclosing
  refine ⟨?_, ?_, ?_⟩
  · obtain ⟨z, hz, rfl⟩ := hread isWord_beginWord
    rw [ofLine?, hz, Option.bind_some, ofComment?_beginWord]
  · obtain ⟨z, hz, rfl⟩ := hread isWord_endWord
    rw [ofLine?, hz, Option.bind_some, ofComment?_endWord]
  · obtain ⟨z, hz, rfl⟩ := hread isWord_endOfWord
    rw [ofLine?, hz, Option.bind_some, ofComment?_endOfWord]

/-- A line with more than one opening and more than one closing, and the markers with a name that
ends like a closing begins. -/
theorem ofLine?_scanned_twoComments :
    '\n' ∉ ("<p> <!-- begin: a <!-- b--> --> <!-- end: c -->\n".toList).dropLast ∧
    text? "<p> <!-- begin: a <!-- b--> --> <!-- end: c -->\n".toList =
      some "begin: a <!-- b".toList ∧
    (¬ opening <:+: "<p> <!-".toList ∧
      (Text.isBlank " ".toList = true ∧ '\n' ∉ " ".toList) ∧
      (Text.isBlank [] = true ∧ '\n' ∉ ([] : Text)) ∧
      Text.trim "Main--".toList = "Main--".toList ∧ '\n' ∉ "Main--".toList ∧
      ¬ closing <:+: "Main--".toList) ∧
    ofLine? (line "<p> <!-".toList " ".toList beginWord [] "Main--".toList []
      "<!-- end: c -->".toList) = some (begins "Main--".toList) := by
  have hpara : ¬ opening <:+: "<p> <!-".toList := by decide
  have hspace : Text.isBlank " ".toList = true ∧ '\n' ∉ " ".toList := by decide
  have hnone : Text.isBlank [] = true ∧ '\n' ∉ ([] : Text) := by decide
  have htrim : Text.trim "Main--".toList = "Main--".toList := by decide
  have hnewline : '\n' ∉ "Main--".toList := by decide
  have hclosing : ¬ closing <:+: "Main--".toList := by decide
  have hline : '\n' ∉ ("<p> <!-- begin: a <!-- b--> --> <!-- end: c -->\n".toList).dropLast := by
    decide
  refine ⟨hline, ?_, ⟨hpara, hspace, hnone, htrim, hnewline, hclosing⟩, ?_⟩
  · rw [ofLine?_scanned.1 _ hline]
    decide
  · exact (ofLine?_scanned.2 _ _ _ _ _ "<!-- end: c -->".toList hpara hspace hnone hnone htrim
      hnewline hclosing).1

end Marker

end PagePartials
