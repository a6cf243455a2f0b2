import PagePartials.Proofs.SectionName
import PagePartials.Proofs.Text.Pieces
import Mathlib.Computability.Language
import Mathlib.Data.List.DropRight
import Mathlib.Data.List.Infix

/-!
# Names spelled by runs

A name is made by collapsing and stripping, character by character. What comes out can be said at
once: the runs of small letters and digits in the lower case of the text, each as long as it can be,
in order, with one underscore between them. So a name is a text of the grammar that has words with
single underscores between them, every text of the grammar is a name, and it is the name of itself.

Only characters that a name keeps matter. Whatever else the lower case of a character may be, as
long as neither small letters nor digits come up in it, the name is the same.

## Main definitions

* `SectionName.IsWord w`: whether `w` is small letters and digits, at least one
* `SectionName.runs t`: the runs of small letters and digits in `t`
* `SectionName.IsRun u w v`: whether `w` is such a run between `u` and `v`
* `SectionName.Lowered t u`: whether `u` is `t` in lower case
* `SectionName.normalForms`: the words with single underscores between them

## Main results

* `SectionName.runs_eq_append_cons_iff`: the runs of a text are where nothing goes on
* `SectionName.strip_collapse`: collapsing and stripping joins the runs
* `SectionName.normalize_joins_runs`: names are joined runs, and what names there are
-/

namespace PagePartials

namespace SectionName

variable {c d : Char} {t u v w n : Text} {xs ys ws : List Text}

/-! ## Runs -/

/-- Whether the text is made of small letters and digits, at least one. -/
def IsWord (w : Text) : Prop := w ≠ [] ∧ ∀ c ∈ w, isKept c = true

/-- The runs of characters that a name keeps, in order. -/
def runs (t : Text) : List Text := (t.splitOnP fun c => !isKept c).filter (· != [])

/-- Whether `w` is a run where it stands between `u` and `v`: a word that goes on neither before nor
behind it. -/
structure IsRun (u w v : Text) : Prop where
  isWord : IsWord w
  before : ∀ c ∈ u.getLast?, isKept c = false
  behind : ∀ c ∈ v.head?, isKept c = false

@[simp] theorem runs_nil : runs [] = [] := by simp [runs, List.splitOnP_nil]

theorem runs_append_cons (hc : isKept c = false) (u v : Text) :
    runs (u ++ c :: v) = runs u ++ runs v := by
  unfold runs
  rw [List.splitOnP_append_cons u v (by simp [hc]), List.filter_append]

theorem runs_cons (hc : isKept c = false) (t : Text) : runs (c :: t) = runs t := by
  simpa using runs_append_cons hc [] t

theorem IsWord.runs_eq (hw : IsWord w) : runs w = [w] := by
  rw [runs, List.splitOnP_eq_singleton fun c hc => by simp [hw.2 c hc]]
  simp [hw.1]

theorem runs_eq_nil_of_not_kept (h : ∀ c ∈ t, isKept c = false) : runs t = [] := by
  induction t with
  | nil => exact runs_nil
  | cons c t ih =>
    obtain ⟨hc, ht⟩ := List.forall_mem_cons.mp h
    rw [runs_cons hc, ih ht]

theorem runs_append_of_before (hu : ∀ c ∈ u.getLast?, isKept c = false) (v : Text) :
    runs (u ++ v) = runs u ++ runs v := by
  rcases List.eq_nil_or_concat u with rfl | ⟨u, c, rfl⟩
  · simp
  · have hc : isKept c = false := hu c (by simp)
    rw [List.concat_eq_append, List.append_assoc, List.singleton_append, runs_append_cons hc,
      runs_append_cons hc, runs_nil, List.append_nil]

theorem runs_append_of_behind (u : Text) (hv : ∀ c ∈ v.head?, isKept c = false) :
    runs (u ++ v) = runs u ++ runs v := by
  rcases v with _ | ⟨c, v⟩
  · simp
  · have hc : isKept c = false := hv c rfl
    rw [runs_append_cons hc, runs_cons hc]

theorem IsRun.runs_eq (h : IsRun u w v) : runs (u ++ (w ++ v)) = runs u ++ w :: runs v := by
  rw [runs_append_of_before h.before, runs_append_of_behind w h.behind, h.isWord.runs_eq]
  rfl

/-- A text that begins with a kept character begins with a run. -/
theorem exists_isRun_of_isKept (hc : isKept c = true) (t : Text) :
    ∃ w v, c :: t = w ++ v ∧ IsRun [] w v := by
  refine ⟨(c :: t).takeWhile isKept, (c :: t).dropWhile isKept,
    List.takeWhile_append_dropWhile.symm, ⟨by simp [hc], fun d hd => List.mem_takeWhile_imp hd⟩,
    by simp, fun d hd => ?_⟩
  have hne := List.head?_dropWhile_not isKept (c :: t)
  rw [Option.mem_def.mp hd] at hne
  simpa using hne

theorem runs_eq_nil_iff : runs t = [] ↔ ∀ c ∈ t, isKept c = false := by
  constructor
  · intro h
    induction t with
    | nil => simp
    | cons c t ih =>
      by_cases hc : isKept c = true
      · obtain ⟨w, v, heq, hrun⟩ := exists_isRun_of_isKept hc t
        have hr := hrun.runs_eq
        rw [List.nil_append, ← heq, h] at hr
        simp at hr
      · rw [Bool.not_eq_true] at hc
        rw [runs_cons hc] at h
        exact List.forall_mem_cons.mpr ⟨hc, ih h⟩
  · exact runs_eq_nil_of_not_kept

/-- The first run of a text has nothing in front of it that a name keeps. -/
theorem exists_isRun_of_runs_eq_cons (h : runs t = w :: ys) :
    ∃ u v, t = u ++ (w ++ v) ∧ IsRun u w v ∧ (∀ c ∈ u, isKept c = false) ∧ runs v = ys := by
  induction t with
  | nil => simp at h
  | cons c t ih =>
    by_cases hc : isKept c = true
    · obtain ⟨w', v, heq, hrun⟩ := exists_isRun_of_isKept hc t
      have hr := hrun.runs_eq
      rw [List.nil_append, ← heq, h, runs_nil, List.nil_append] at hr
      obtain ⟨rfl, rfl⟩ := List.cons.inj hr
      exact ⟨[], v, heq, hrun, by simp, rfl⟩
    · rw [Bool.not_eq_true] at hc
      rw [runs_cons hc] at h
      obtain ⟨u, v, rfl, hrun, hu, hv⟩ := ih h
      have hcu : ∀ d ∈ c :: u, isKept d = false := List.forall_mem_cons.mpr ⟨hc, hu⟩
      exact ⟨c :: u, v, rfl, ⟨hrun.isWord, fun d hd => hcu d (List.mem_of_getLast? hd),
        hrun.behind⟩, hcu, hv⟩

/-- **The runs of a text** are the words in it that go on at neither side, in order: what stands
before one of them are the runs of the text up to it, and what stands behind it those of the
rest. -/
theorem runs_eq_append_cons_iff : runs t = xs ++ w :: ys ↔
    ∃ u v, t = u ++ (w ++ v) ∧ IsRun u w v ∧ runs u = xs ∧ runs v = ys := by
  constructor
  · intro h
    induction xs generalizing t with
    | nil =>
      obtain ⟨u, v, ht, hrun, hu, hv⟩ := exists_isRun_of_runs_eq_cons h
      exact ⟨u, v, ht, hrun, runs_eq_nil_iff.mpr hu, hv⟩
    | cons x xs ih =>
      obtain ⟨u, v, rfl, hx, hu, hv⟩ := exists_isRun_of_runs_eq_cons h
      obtain ⟨u', v', rfl, hrun, hxs, hys⟩ := ih hv
      -- The later run does not begin right behind the first one, which would then have gone on.
      obtain ⟨c, u', rfl⟩ : ∃ c u, u' = c :: u := by
        apply List.exists_cons_of_ne_nil
        rintro rfl
        obtain ⟨c, w', rfl⟩ := List.exists_cons_of_ne_nil hrun.isWord.1
        have hkept := hrun.isWord.2 c List.mem_cons_self
        rw [hx.behind c rfl] at hkept
        exact Bool.false_ne_true hkept
      have hfirst : IsRun u x (c :: u') := ⟨hx.isWord, hx.before, hx.behind⟩
      refine ⟨u ++ (x ++ c :: u'), v', by simp, ⟨hrun.isWord, ?_, hrun.behind⟩, ?_, hys⟩
      · intro d hd
        rw [← List.append_assoc, List.getLast?_append_of_ne_nil _ (by simp)] at hd
        exact hrun.before d hd
      · rw [hfirst.runs_eq, runs_eq_nil_iff.mpr hu, hxs, List.nil_append]
  · rintro ⟨u, v, rfl, hrun, rfl, rfl⟩
    exact hrun.runs_eq

theorem isWord_of_mem_runs (hw : w ∈ runs t) : IsWord w := by
  obtain ⟨xs, ys, h⟩ := List.append_of_mem hw
  obtain ⟨_, _, -, hrun, -, -⟩ := runs_eq_append_cons_iff.mp h
  exact hrun.isWord

/-! ## Collapsing and stripping -/

theorem collapse_cons_of_isKept (hc : isKept c = true) (t : Text) :
    collapse (c :: t) = c :: collapse t := by
  rw [collapse, if_pos hc]

theorem collapse_cons_congr (hc : isKept c = false) (hd : isKept d = false) (t : Text) :
    collapse (c :: t) = collapse (d :: t) := by
  rw [collapse, collapse, if_neg (by simp [hc]), if_neg (by simp [hd])]

theorem collapse_append_of_isKept (hw : ∀ c ∈ w, isKept c = true) (t : Text) :
    collapse (w ++ t) = w ++ collapse t := by
  induction w with
  | nil => rfl
  | cons c w ih =>
    obtain ⟨hc, hw⟩ := List.forall_mem_cons.mp hw
    rw [List.cons_append, collapse_cons_of_isKept hc, ih hw, List.cons_append]

/-- One separator stands for all characters in a row that are not kept. -/
theorem collapse_cons_cons (hc : isKept c = false) (hd : isKept d = false) (t : Text) :
    collapse (c :: d :: t) = collapse (d :: t) := by
  have hd' : ¬ isKept d = true := by simp [hd]
  rw [collapse, if_neg (by simp [hc]), collapse, if_neg hd']
  rcases collapse t with _ | ⟨e, u⟩
  · simp
  · by_cases he : e = separator <;> simp [he]

/-- One separator stands for everything that is not kept in front of a text. -/
theorem collapse_append_of_not_kept (hne : u ≠ []) (hu : ∀ c ∈ u, isKept c = false) (t : Text) :
    collapse (u ++ t) = collapse (separator :: t) := by
  induction u with
  | nil => exact absurd rfl hne
  | cons c u ih =>
    obtain ⟨hc, hu⟩ := List.forall_mem_cons.mp hu
    rcases u with _ | ⟨d, u⟩
    · exact collapse_cons_congr hc (by decide) t
    · obtain ⟨hd, -⟩ := List.forall_mem_cons.mp hu
      rw [List.cons_append, List.cons_append, collapse_cons_cons hc hd]
      exact ih (by simp) hu

theorem collapse_separator_cons (hc : isKept c = true) (t : Text) :
    collapse (separator :: c :: t) = separator :: collapse (c :: t) := by
  have hne : c ≠ separator := by
    rintro rfl
    exact absurd hc (by decide)
  rw [collapse, if_neg (by decide), collapse_cons_of_isKept hc]
  simp [hne]

theorem collapse_eq_of_not_kept (h : ∀ c ∈ t, isKept c = false) :
    collapse t = [] ∨ collapse t = [separator] := by
  rcases eq_or_ne t [] with rfl | hne
  · exact .inl rfl
  · refine .inr ?_
    have ht := collapse_append_of_not_kept hne h []
    rw [List.append_nil] at ht
    rw [ht]
    rfl

/-- What stands before the last character that stays is not touched at the end. -/
theorem rdropWhile_append {p : Char → Bool} (hu : ∀ c ∈ u.getLast?, p c = false) (t : Text) :
    (u ++ t).rdropWhile p = u ++ t.rdropWhile p := by
  induction t using List.reverseRecOn with
  | nil =>
    rw [List.append_nil, List.rdropWhile_nil, List.append_nil, List.rdropWhile_eq_self_iff]
    intro hne
    simp [hu _ (List.getLast?_eq_some_getLast hne)]
  | append_singleton t c ih =>
    rw [← List.append_assoc]
    by_cases hc : p c = true
    · rw [List.rdropWhile_concat_pos _ _ _ hc, List.rdropWhile_concat_pos _ _ _ hc, ih]
    · rw [List.rdropWhile_concat_neg _ _ _ hc, List.rdropWhile_concat_neg _ _ _ hc,
        List.append_assoc]

theorem IsWord.getLast?_ne (hw : IsWord w) (u : Text) :
    ∀ c ∈ (u ++ w).getLast?, (c == separator) = false := by
  intro c hc
  rw [List.getLast?_append_of_ne_nil _ hw.1] at hc
  have hkept := hw.2 c (List.mem_of_getLast? hc)
  rw [beq_eq_false_iff_ne]
  rintro rfl
  exact absurd hkept (by decide)

theorem strip_separator_cons (t : Text) : strip (separator :: t) = strip t := by
  rw [strip, strip, List.dropWhile_cons_of_pos (by simp)]

/-- Stripping keeps a word in front. -/
theorem IsWord.strip_append (hw : IsWord w) (t : Text) :
    strip (w ++ t) = w ++ t.rdropWhile (· == separator) := by
  have hstart : (w ++ t).dropWhile (· == separator) = w ++ t := by
    obtain ⟨c, w, rfl⟩ := List.exists_cons_of_ne_nil hw.1
    have hc := hw.2 c List.mem_cons_self
    refine List.dropWhile_cons_of_neg fun hsep => ?_
    rw [beq_iff_eq.mp hsep] at hc
    exact absurd hc (by decide)
  have hend := rdropWhile_append (hw.getLast?_ne []) t
  rw [strip, hstart]
  exact hend

theorem intercalate_cons_eq_flatMap (w : Text) (ws : List Text) :
    [separator].intercalate (w :: ws) = w ++ ws.flatMap (separator :: ·) := by
  induction ws generalizing w with
  | nil => simp
  | cons v ws ih => rw [List.intercalate_cons_cons, ih]; simp

/-- Behind a run, collapsing leaves the other runs, each with a separator in front, and perhaps a
separator that stripping takes away. -/
theorem rdropWhile_collapse (h : runs t = ws) (ht : ∀ c ∈ t.head?, isKept c = false) :
    (collapse t).rdropWhile (· == separator) = ws.flatMap (separator :: ·) := by
  induction ws generalizing t with
  | nil =>
    rcases collapse_eq_of_not_kept (runs_eq_nil_iff.mp h) with hc | hc <;> rw [hc] <;> rfl
  | cons w ws ih =>
    obtain ⟨u, v, rfl, hrun, hu, hv⟩ := exists_isRun_of_runs_eq_cons h
    obtain ⟨c, w', rfl⟩ := List.exists_cons_of_ne_nil hrun.isWord.1
    have hc := hrun.isWord.2 c List.mem_cons_self
    -- Something that is not kept stands in front of the word.
    have hne : u ≠ [] := by
      rintro rfl
      rw [ht c rfl] at hc
      exact Bool.false_ne_true hc
    have hword : (separator :: (c :: w' ++ collapse v)).rdropWhile (· == separator) =
        (separator :: c :: w') ++ (collapse v).rdropWhile (· == separator) :=
      rdropWhile_append (hrun.isWord.getLast?_ne [separator]) (collapse v)
    rw [collapse_append_of_not_kept hne hu, List.cons_append, collapse_separator_cons hc,
      ← List.cons_append, collapse_append_of_isKept hrun.isWord.2, hword, ih hv hrun.behind]
    rfl

/-- **Collapsing and stripping joins the runs** of a text. -/
theorem strip_collapse (t : Text) : strip (collapse t) = [separator].intercalate (runs t) := by
  rcases hr : runs t with _ | ⟨w, ws⟩
  · rcases collapse_eq_of_not_kept (runs_eq_nil_iff.mp hr) with hc | hc <;> rw [hc] <;> rfl
  · obtain ⟨u, v, rfl, hrun, hu, hv⟩ := exists_isRun_of_runs_eq_cons hr
    obtain ⟨c, w', rfl⟩ := List.exists_cons_of_ne_nil hrun.isWord.1
    have hc := hrun.isWord.2 c List.mem_cons_self
    -- Of what stands in front of the first word, nothing stays.
    have hfront : strip (collapse (u ++ (c :: w' ++ v))) = strip (collapse (c :: w' ++ v)) := by
      rcases eq_or_ne u [] with rfl | hne
      · rfl
      · rw [collapse_append_of_not_kept hne hu, List.cons_append, collapse_separator_cons hc,
          strip_separator_cons]
    rw [hfront, collapse_append_of_isKept hrun.isWord.2, hrun.isWord.strip_append,
      rdropWhile_collapse hv hrun.behind, intercalate_cons_eq_flatMap]

/-! ## Lower case -/

/-- Whether the text is the character in lower case, as far as a name can tell: the lower case that
is used here, or any other characters where neither of the two has one that a name keeps. -/
def IsLowerCase (c : Char) (p : Text) : Prop :=
  p = lowerCase c ∨ p ≠ [] ∧ ∀ d ∈ p ++ lowerCase c, isKept d = false

/-- Whether the second text is the first one in lower case, character by character, as far as a name
can tell. -/
inductive Lowered : Text → Text → Prop
  | nil : Lowered [] []
  | cons {c : Char} {p t u : Text} (hp : IsLowerCase c p) (ht : Lowered t u) :
      Lowered (c :: t) (p ++ u)

theorem lowered_lower (t : Text) : Lowered t t.lower := by
  induction t with
  | nil => exact .nil
  | cons c t ih => exact .cons (.inl rfl) ih

theorem lowerCase_ne_nil (c : Char) : lowerCase c ≠ [] := by
  unfold lowerCase
  split
  · simp
  · split <;> simp

theorem collapse_append_congr (h : collapse u = collapse v) (t : Text) :
    collapse (t ++ u) = collapse (t ++ v) := by
  induction t with
  | nil => exact h
  | cons c t ih => simp only [List.cons_append, collapse, ih]

/-- A name depends on the lower case only where small letters and digits come up in it. -/
theorem Lowered.collapse_eq (h : Lowered t u) : collapse u = collapse t.lower := by
  induction h with
  | nil => rfl
  | @cons c p t u hp _ ih =>
    show collapse (p ++ u) = collapse (lowerCase c ++ t.lower)
    rw [collapse_append_congr ih]
    rcases hp with rfl | ⟨hne, hnone⟩
    · rfl
    · obtain ⟨hp, hc⟩ := List.forall_mem_append.mp hnone
      rw [collapse_append_of_not_kept hne hp, collapse_append_of_not_kept (lowerCase_ne_nil c) hc]

theorem Lowered.normalize_eq (h : Lowered t u) :
    normalize t = [separator].intercalate (runs u) := by
  rw [normalize, ← h.collapse_eq, strip_collapse]

theorem toLower_eq_self (hc : IsNameChar c) : c.toLower = c := by
  unfold Char.toLower
  refine dif_neg fun hupper => ?_
  rcases hc with hc | rfl
  · simp only [isKept, Bool.or_eq_true, Bool.and_eq_true, decide_eq_true_eq, Char.le_def,
      UInt32.le_iff_toNat_le] at hc hupper
    revert hc hupper
    simp
    omega
  · exact absurd hupper (by decide)

theorem lowerCase_eq_self (hc : IsNameChar c) : lowerCase c = [c] := by
  rw [lowerCase, if_neg (hc.ne (by decide) (by decide)), if_neg (hc.ne (by decide) (by decide)),
    toLower_eq_self hc]

theorem lower_eq_self (h : ∀ c ∈ n, IsNameChar c) : Text.lower n = n := by
  induction n with
  | nil => rfl
  | cons c n ih =>
    obtain ⟨hc, hn⟩ := List.forall_mem_cons.mp h
    have ih' := ih hn
    unfold Text.lower at ih' ⊢
    rw [List.flatMap_cons, lowerCase_eq_self hc, ih', List.singleton_append]

/-! ## The grammar of names -/

/-- The words that names are made of. -/
def words : Language Char := {w | IsWord w}

open Computability in
/-- The grammar of normalized names: nothing, or words with single underscores between them. -/
def normalForms : Language Char := 1 + words * ({[separator]} * words)∗

theorem mem_normalForms_of_isWord (hws : ∀ w ∈ ws, IsWord w) :
    [separator].intercalate ws ∈ normalForms := by
  rcases ws with _ | ⟨w, ws⟩
  · exact .inl rfl
  · obtain ⟨hw, hws⟩ := List.forall_mem_cons.mp hws
    rw [intercalate_cons_eq_flatMap, List.flatMap_def]
    refine .inr (Language.append_mem_mul hw (Language.join_mem_kstar fun y hy => ?_))
    obtain ⟨v, hv, rfl⟩ := List.mem_map.mp hy
    exact Language.mem_mul.mpr ⟨[separator], rfl, v, hws v hv, rfl⟩

theorem exists_flatMap_of_forall_mem {ys : List Text}
    (h : ∀ y ∈ ys, y ∈ ({[separator]} * words : Language Char)) :
    ∃ ws : List Text, (∀ w ∈ ws, IsWord w) ∧ ys.flatten = ws.flatMap (separator :: ·) := by
  induction ys with
  | nil => exact ⟨[], by simp, rfl⟩
  | cons y ys ih =>
    obtain ⟨hy, hys⟩ := List.forall_mem_cons.mp h
    obtain ⟨_, rfl, w, hw, rfl⟩ := Language.mem_mul.mp hy
    obtain ⟨ws, hws, heq⟩ := ih hys
    refine ⟨w :: ws, List.forall_mem_cons.mpr ⟨hw, hws⟩, ?_⟩
    rw [List.flatten_cons, heq, List.flatMap_cons]
    rfl

/-- The grammar holds what words are joined to. -/
theorem mem_normalForms_iff :
    n ∈ normalForms ↔ ∃ ws, (∀ w ∈ ws, IsWord w) ∧ n = [separator].intercalate ws := by
  constructor
  · rintro (hn | hn)
    · exact ⟨[], by simp, hn⟩
    · obtain ⟨w, hw, _, ⟨ys, rfl, hys⟩, rfl⟩ := Language.mem_mul.mp hn
      obtain ⟨ws, hws, heq⟩ := exists_flatMap_of_forall_mem hys
      exact ⟨w :: ws, List.forall_mem_cons.mpr ⟨hw, hws⟩, by rw [intercalate_cons_eq_flatMap, heq]⟩
  · rintro ⟨ws, hws, rfl⟩
    exact mem_normalForms_of_isWord hws

/-- Joined words are the runs of what they are joined to. -/
theorem runs_intercalate (hws : ∀ w ∈ ws, IsWord w) : runs ([separator].intercalate ws) = ws := by
  induction ws with
  | nil => exact runs_nil
  | cons w ws ih =>
    obtain ⟨hw, hws⟩ := List.forall_mem_cons.mp hws
    rcases ws with _ | ⟨v, ws⟩
    · rw [List.intercalate_singleton, hw.runs_eq]
    · rw [List.intercalate_cons_cons, List.append_assoc, List.singleton_append,
        runs_append_cons (by decide), hw.runs_eq, ih hws, List.singleton_append]

theorem normalize_mem_normalForms (t : Text) : normalize t ∈ normalForms := by
  rw [(lowered_lower t).normalize_eq]
  exact mem_normalForms_of_isWord fun _ hw => isWord_of_mem_runs hw

theorem normalize_eq_self_of_mem (hn : n ∈ normalForms) : normalize n = n := by
  obtain ⟨ws, hws, rfl⟩ := mem_normalForms_iff.mp hn
  have hchars : ∀ c ∈ [separator].intercalate ws, IsNameChar c := by
    intro c hc
    rcases Text.mem_intercalate hc with rfl | ⟨w, hw, hcw⟩
    · exact .inr rfl
    · exact .inl ((hws w hw).2 c hcw)
  rw [normalize, lower_eq_self hchars, strip_collapse, runs_intercalate hws]

/-- **Names are joined runs.** The name made from a text is the runs of small letters and digits in
its lower case, joined by single underscores, whatever other characters the lower case may have. The
runs are the words that go on at neither side, in the order in which they stand. The names are the
texts of the grammar, and these are the texts that are names of themselves; so the name made from a
name is that name. -/
theorem normalize_joins_runs :
    (∀ t u, Lowered t u → normalize t = [separator].intercalate (runs u)) ∧
    (∀ t, Lowered t t.lower) ∧
    (∀ t xs w ys, runs t = xs ++ w :: ys ↔
      ∃ u v, t = u ++ (w ++ v) ∧ IsRun u w v ∧ runs u = xs ∧ runs v = ys) ∧
    (∀ n, (∃ t, normalize t = n) ↔ n ∈ normalForms) ∧
    (∀ n, normalize n = n ↔ n ∈ normalForms) ∧
    ∀ t, normalize (normalize t) = normalize t := by
  have hself (n : Text) : normalize n = n ↔ n ∈ normalForms :=
    ⟨fun h => h ▸ normalize_mem_normalForms n, normalize_eq_self_of_mem⟩
  refine ⟨fun t u h => h.normalize_eq, lowered_lower, fun t xs w ys => runs_eq_append_cons_iff,
    fun n => ⟨?_, fun hn => ⟨n, (hself n).mpr hn⟩⟩, hself,
    fun t => (hself _).mpr (normalize_mem_normalForms t)⟩
  rintro ⟨t, rfl⟩
  exact normalize_mem_normalForms t

/-- A Kelvin sign, an accented capital and a dotted capital I, in lower case with the accent kept,
are two runs. -/
theorem normalize_accented :
    Lowered "\u212aÉ\u0130".toList ("k".toList ++ ("é".toList ++ ("i\u0307".toList ++ []))) ∧
      normalize "\u212aÉ\u0130".toList = "k_i".toList := by
  have haccent : ∀ d ∈ "é".toList ++ lowerCase 'É', isKept d = false := by
    intro d hd
    have hnone : ("é".toList ++ lowerCase 'É').all (fun d => !isKept d) = true := by decide
    simpa using List.all_eq_true.mp hnone d hd
  have hlower : Lowered "\u212aÉ\u0130".toList
      ("k".toList ++ ("é".toList ++ ("i\u0307".toList ++ []))) :=
    .cons (.inl rfl) (.cons (.inr ⟨by decide, haccent⟩) (.cons (.inl rfl) .nil))
  obtain ⟨hjoins, -⟩ := normalize_joins_runs
  refine ⟨hlower, (hjoins _ _ hlower).trans ?_⟩
  decide

end SectionName

end PagePartials
