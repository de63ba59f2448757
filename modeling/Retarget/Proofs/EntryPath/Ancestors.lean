import Retarget.Proofs.EntryPath.Normal
import Retarget.Proofs.Text.Slices

/-!
The paths above a path. They are made of its first segments, one more each time, so each begins with
those before it, and the last of them is the parent. They can be found by one scan of the path's
UTF-8 form from slash to slash: the offset that the scan has come to is always behind the text that
it has passed, so it never stands inside a character, and it grows until no slash is left.
-/
namespace Retarget.EntryPath

variable {path : EntryPath}

theorem not_mem_ancestors (path : EntryPath) : path ∉ path.ancestors := by
  intro h
  obtain ⟨text⟩ := path
  obtain ⟨part, hpart, hpath⟩ := List.mem_map.mp h
  cases hpath
  obtain ⟨rest, hrest⟩ := Text.exists_of_mem_partsBefore hpart
  have hlength : text.length = (text ++ '/' :: rest).length := congrArg List.length hrest
  rw [List.length_append, List.length_cons] at hlength
  omega

/-- The paths above a path come outermost first. -/
theorem pairwise_ancestors (path : EntryPath) :
    path.ancestors.Pairwise fun outer inner => outer ∈ inner.ancestors :=
  List.pairwise_map.mpr ((Text.pairwise_partsBefore '/' path.text).imp fun h =>
    List.mem_map.mpr ⟨_, h, rfl⟩)

theorem nodup_ancestors (path : EntryPath) : path.ancestors.Nodup := by
  refine path.pairwise_ancestors.imp fun {outer inner} h heq => ?_
  subst heq
  exact outer.not_mem_ancestors h

/-- A path above another is followed by a slash in it. -/
theorem exists_of_mem_ancestors {above : EntryPath} (h : above ∈ path.ancestors) :
    ∃ rest, path.text = above.text ++ '/' :: rest := by
  obtain ⟨part, hpart, rfl⟩ := List.mem_map.mp h
  exact Text.exists_of_mem_partsBefore hpart

/-- A path above another has fewer bytes, and comes before it. -/
theorem shorter_of_mem_ancestors {above : EntryPath} (h : above ∈ path.ancestors) :
    above.text.utf8.length < path.text.utf8.length ∧ above.precedes path := by
  obtain ⟨rest, hrest⟩ := exists_of_mem_ancestors h
  rw [precedes, decide_eq_true_eq, hrest]
  exact ⟨Text.length_utf8_lt_append above.text '/' rest, Text.lt_append_cons above.text '/' rest⟩

def leading (path : EntryPath) (count : Nat) : EntryPath :=
  ⟨Text.joinWith '/' (path.segments.take count)⟩

theorem ancestors_eq (path : EntryPath) :
    path.ancestors =
      (List.range (path.segments.length - 1)).map fun i => path.leading (i + 1) := by
  rw [ancestors, Text.partsBefore_eq, List.map_map]
  rfl

theorem segments_ne_nil (path : EntryPath) : path.segments ≠ [] :=
  Text.splitOn_ne_nil '/' path.text

theorem parent?_eq_getLast? (path : EntryPath) : path.parent? = path.ancestors.getLast? := by
  rw [parent?, ancestors, Text.beforeLast?_eq_getLast?, List.getLast?_map]

/-- What is above the parent is above the path, and only the parent is besides. -/
theorem ancestors_of_parent? {parent : EntryPath} (h : path.parent? = some parent) :
    path.ancestors = parent.ancestors ++ [parent] := by
  obtain ⟨before, hbefore, rfl⟩ := Option.map_eq_some_iff.mp h
  rw [ancestors, Text.partsBefore_of_beforeLast? hbefore, List.map_append]
  rfl

section Scan

variable {t before rest : Text} {found : List Text}

/-- What a look for the next slash, from a byte offset on, comes to. -/
inductive Look
  /-- The text cannot be cut at an offset that it has to be cut at. -/
  | refused
  /-- No slash is left. -/
  | ended
  /-- There is a slash: the text before it, and the offset behind it. -/
  | slash (part : Text) (next : Nat)

/-- The text from the offset on is searched, and a slash in it is where the text is cut. -/
def look (t : Text) (offset : Nat) : Look :=
  match t.sliceFrom? offset with
  | none => .refused
  | some rest =>
    match rest.offset? '/' with
    | none => .ended
    | some position =>
      match t.sliceTo? (offset + position) with
      | none => .refused
      | some part => .slash part (offset + position + 1)

/-- Each slash takes the offset further on, and only an offset in the text comes to one. -/
theorem lt_of_look {part : Text} {offset next : Nat} (h : look t offset = .slash part next) :
    offset < next ∧ offset ≤ t.utf8.length := by
  unfold look at h
  split at h
  · cases h
  · next hrest =>
    have hoffset := Text.le_of_sliceFrom? hrest
    split at h
    · cases h
    · split at h
      · cases h
      · cases h
        exact ⟨by omega, hoffset⟩

/-- The text before each slash from a byte offset on, added to what is found already; or nothing, if
the text cannot be cut there. -/
def scan? (t : Text) (offset : Nat) (found : List Text) : Option (List Text) :=
  match _ : look t offset with
  | .refused => none
  | .ended => some found
  | .slash part next => scan? t next (found ++ [part])
termination_by t.utf8.length + 1 - offset
decreasing_by
  have hlook := lt_of_look ‹look t offset = .slash part next›
  omega

theorem look_of_not_mem (h : '/' ∉ rest) :
    look (before ++ rest) before.utf8.length = .ended := by
  simp only [look, Text.sliceFrom?_append, Text.offset?_of_not_mem h]

/-- Behind the text that is passed, the next slash is found where the next segment ends. -/
theorem look_of_slash {segment : Text} (h : '/' ∉ segment) :
    look (before ++ (segment ++ '/' :: rest)) before.utf8.length =
      .slash (before ++ segment) (before ++ segment ++ ['/']).utf8.length := by
  have hoffset : before.utf8.length + segment.utf8.length = (before ++ segment).utf8.length := by
    rw [Text.utf8_append, List.length_append]
  have hslice : Text.sliceTo? (before ++ (segment ++ '/' :: rest))
      (before ++ segment).utf8.length = some (before ++ segment) := by
    rw [← List.append_assoc, Text.sliceTo?_append]
  simp only [look, Text.sliceFrom?_append, Text.offset?_append h, hoffset, hslice]
  rw [Text.utf8_append (before ++ segment), List.length_append, Text.length_utf8_slash]

/-- From any point on, the scan finds the parts that end behind it. -/
theorem scan?_append (before rest : Text) (found : List Text) :
    scan? (before ++ rest) before.utf8.length found =
      some (found ++ (rest.partsBefore '/').map (before ++ ·)) := by
  by_cases hslash : '/' ∈ rest
  · obtain ⟨segment, later, hrest, hsegment⟩ := List.eq_append_cons_of_mem hslash
    have hshorter : later.length < rest.length := by
      rw [hrest, List.length_append, List.length_cons]
      omega
    have hagain : before ++ (segment ++ '/' :: later) = before ++ segment ++ ['/'] ++ later := by
      simp
    rw [hrest, scan?, look_of_slash hsegment]
    simp only
    rw [hagain, scan?_append _ later, Text.partsBefore_append_sep,
      Text.partsBefore_of_not_mem hsegment]
    simp
  · rw [scan?, look_of_not_mem hslash, Text.partsBefore_of_not_mem hslash, List.map_nil,
      List.append_nil]
termination_by rest.length

/-- The scan of a path finds the paths above it. -/
theorem scan?_eq (path : EntryPath) :
    scan? path.text 0 [] = some (path.ancestors.map EntryPath.text) := by
  have hscan := scan?_append [] path.text []
  simpa [ancestors, Text.utf8_eq, Function.comp_def] using hscan

end Scan

theorem length_ancestors (path : EntryPath) : path.ancestors.length + 1 = path.segments.length := by
  have hsegments : 0 < path.segments.length := List.length_pos_iff.mpr path.segments_ne_nil
  rw [ancestors_eq, List.length_map, List.length_range]
  omega

/-- There is no parent exactly when nothing is above. -/
theorem parent?_eq_none_iff : path.parent? = none ↔ path.ancestors = [] := by
  rw [parent?_eq_getLast?, List.getLast?_eq_none_iff]

/-- Above a normal path are the paths of its first segments, one more each time but never all of
them, and a scan of its bytes comes to its end and finds them. They are normal and all different,
each is followed by a slash in the path, and each is longer than those before it and comes after
them. The parent is the last of them, if there is one, and the others are what is above it. -/
theorem leading_segments_above (h : path.IsNormal) :
    scan? path.text 0 [] = some (path.ancestors.map EntryPath.text) ∧
    path.ancestors =
      (List.range (path.segments.length - 1)).map (fun i => path.leading (i + 1)) ∧
    path.ancestors.length + 1 = path.segments.length ∧
    (∀ above ∈ path.ancestors, above.IsNormal ∧ ∃ rest, path.text = above.text ++ '/' :: rest) ∧
    path.ancestors.Nodup ∧
    path.ancestors.Pairwise (fun outer inner =>
      outer.text.utf8.length < inner.text.utf8.length ∧ outer.precedes inner) ∧
    path.parent? = path.ancestors.getLast? ∧
    (path.parent? = none ↔ path.ancestors = []) ∧
    ∀ parent, path.parent? = some parent → parent.ancestors = path.ancestors.dropLast := by
  refine ⟨scan?_eq path, ancestors_eq path, length_ancestors path, ?_, path.nodup_ancestors,
    path.pairwise_ancestors.imp shorter_of_mem_ancestors, parent?_eq_getLast? path,
    parent?_eq_none_iff, ?_⟩
  · intro above habove
    exact ⟨isNormal_of_mem_ancestors h habove, exists_of_mem_ancestors habove⟩
  · intro parent hparent
    rw [ancestors_of_parent? hparent, List.dropLast_concat]

/-- Segments of characters of two, three and four bytes. -/
theorem leading_segments_above_wideLetters :
    (EntryPath.mk "é/語/𝒳.class".toList).IsNormal ∧
      scan? "é/語/𝒳.class".toList 0 [] = some ["é".toList, "é/語".toList] ∧
      (EntryPath.mk "é/語/𝒳.class".toList).parent? = some ⟨"é/語".toList⟩ ∧
      (EntryPath.mk "é/語".toList).ancestors = [⟨"é".toList⟩] := by
  have hnormal : (EntryPath.mk "é/語/𝒳.class".toList).IsNormal := by decide
  obtain ⟨hscan, hleading, -, -, -, -, hlast, -, hparent⟩ := leading_segments_above hnormal
  have hancestors : (EntryPath.mk "é/語/𝒳.class".toList).ancestors =
      [⟨"é".toList⟩, ⟨"é/語".toList⟩] := by
    rw [hleading]
    rfl
  rw [hancestors] at hscan hlast
  have habove : (EntryPath.mk "é/語/𝒳.class".toList).parent? = some ⟨"é/語".toList⟩ := hlast
  refine ⟨hnormal, hscan, habove, ?_⟩
  rw [hparent _ habove, hancestors]
  rfl

end Retarget.EntryPath
