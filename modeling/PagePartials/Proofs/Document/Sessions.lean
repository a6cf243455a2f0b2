import PagePartials.Proofs.Document.Slices

/-!
# Pages read one after the other

A session that reads several pages reads each of them as if it were the first. The sections of a
page begin at its begin markers, from the first one on that names no product, and their names are
those that a fresh registry gives for the names in these markers, one after the other. Neither end
markers nor the way sections stand in each other have a part in it.

## Main definitions

* `beginNames ls`: the names in the begin markers among the lines `ls`

## Main results

* `Session.readAll_eq_map`: a session reads every page afresh
* `Body.WellMarked.map_name_place_eq`: the names of a body's sections, from its lines
* `Session.sections_follow_beginLines`: where the sections of a page begin, and what they are called
-/

namespace PagePartials

open SectionName (Registry)

/-! ## Names in begin markers -/

/-- The names in the begin markers among the given lines, in their order. -/
def beginNames (ls : List Text) : List Text :=
  ls.filterMap fun l =>
    match Marker.ofLine? l with
    | some (.begins n) => some n
    | _ => none

theorem beginNames_eq_map_beginLines (ls : List Text) :
    beginNames ls =
      (beginLines ls).map fun l => ((Marker.ofLine? l).map Marker.name).getD [] := by
  induction ls with
  | nil => rfl
  | cons l ls ih =>
    unfold beginNames beginLines at ih ⊢
    rcases hm : Marker.ofLine? l with _ | n | n
    · simpa [hm] using ih
    · simpa [hm, Marker.isBegin, Marker.name] using ih
    · simpa [hm, Marker.isBegin] using ih

namespace Body

variable {owner : Option Text} {atEnd : Bool} {r r' : Registry} {b : Body}

/-- The names in the begin markers of a body's sections are those in the begin markers of its
lines. -/
theorem WellMarked.map_markerName_place (h : b.WellMarked owner atEnd r r') (above : List Text) :
    (b.place above).map (·.markerName) = beginNames b.allLines := by
  let name : Option Text → Text := fun c => ((c.bind Marker.ofLine?).map Marker.name).getD []
  calc (b.place above).map (·.markerName)
      = ((b.place above).map (·.startComment)).map name := by rw [List.map_map]; rfl
    _ = (beginLines b.allLines).map (name ∘ some) := by
      rw [h.map_startComment_place, List.map_map]
    _ = beginNames b.allLines := (beginNames_eq_map_beginLines _).symm

/-- The sections of a body have the names that the registry gives, one after the other, for the
names in the begin markers of its lines. -/
theorem WellMarked.map_name_place_eq (h : b.WellMarked owner atEnd r r') (above : List Text) :
    (b.place above).map (·.name) = r.assignAll (beginNames b.allLines) := by
  rw [(h.map_name_place above).1, h.map_markerName_place]

end Body

/-! ## Sessions -/

namespace Session

/-- What was read before does not matter to a page. -/
theorem fst_read (s : Session) (t : Text) : (s.read t).1 = Reading.ofText t := rfl

/-- **A session reads every page afresh.** -/
theorem readAll_eq_map (s : Session) (ts : List Text) : s.readAll ts = ts.map Reading.ofText := by
  induction ts generalizing s with
  | nil => rfl
  | cons t ts ih => rw [readAll, fst_read, ih, List.map_cons]

/-- **Sections follow the begin markers.** Whatever pages a session has read before, it reads the
next one as if it were the first. The text is cut into lines of which the first ones begin no
section and the next one does; the sections of the page begin with the begin markers from there on,
in the order of the text, and have the names that a fresh registry gives for the names in these
markers, in that order. -/
theorem sections_follow_beginLines (s : Session) (earlier : List Text) (t : Text) :
    s.readAll (earlier ++ [t]) = s.readAll earlier ++ [Reading.ofText t] ∧
      ∃ head tail, Text.lines t = head ++ tail ∧ (∀ l ∈ head, ¬ BeginsSections l) ∧
        (∀ l ∈ tail.head?, BeginsSections l) ∧
        (Reading.ofText t).document.header = head.flatten ∧
        (Reading.ofText t).document.sections.map (·.startComment) = (beginLines tail).map some ∧
        (Reading.ofText t).document.sections.map (·.name) =
          Registry.empty.assignAll (beginNames tail) := by
  constructor
  · rw [readAll_eq_map, readAll_eq_map, List.map_append, List.map_singleton]
  · obtain ⟨head, hhead, hlines, hwf⟩ := Document.wellFormed_ofText t
    obtain ⟨r, hm⟩ := hwf.marked
    exact ⟨head, _, hlines, hwf.header, hwf.first, hhead, hm.map_startComment_place [],
      hm.map_name_place_eq []⟩

end Session

end PagePartials
