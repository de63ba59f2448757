import Retarget.Proofs.Json.RoundTrip
import Retarget.Proofs.Support.Additions
import Retarget.Proofs.ZipTree.Written

/-!
The paths that can be made, and which of them are normal. Reading a raw name, from JSON or not,
makes normal paths only, and what is above a normal path is normal. The path of a class's file is
taken from the class's name unread: it is normal exactly for plain names. So all paths are normal as
long as the names of classes are plain. An archive that support classes were put into is opened as
it was written in exactly that case too.
-/
namespace Retarget

theorem Text.splitOn_append_of_not_mem {sep : Char} {tail : Text} (h : sep ∉ tail) (t : Text) :
    ∃ front last, splitOn sep t = front ++ [last] ∧
      splitOn sep (t ++ tail) = front ++ [last ++ tail] := by
  induction t with
  | nil => exact ⟨[], [], rfl, splitOn_of_not_mem h⟩
  | cons c cs ih =>
    obtain ⟨front, last, hcs, htail⟩ := ih
    by_cases hc : c = sep
    · refine ⟨[] :: front, last, ?_, ?_⟩
      · simp [splitOn, hc, hcs]
      · simp [splitOn, hc, htail]
    · cases front with
      | nil => exact ⟨[], c :: last, by simp [splitOn, hc, hcs], by simp [splitOn, hc, htail]⟩
      | cons first others =>
        exact ⟨(c :: first) :: others, last, by simp [splitOn, hc, hcs],
          by simp [splitOn, hc, htail]⟩

/-- Neither a backslash nor, before the last segment, a `.` or `..`. -/
structure ClassName.IsPlain (name : ClassName) : Prop where
  backslash_not_mem : '\\' ∉ name.text
  dots_not_mem : ∀ segment ∈ name.segments.dropLast, segment ≠ ['.'] ∧ segment ≠ ['.', '.']

namespace EntryPath

variable {path : EntryPath}

theorem normalSegment_append_classSuffix {last : Text} (h : '\\' ∉ last) :
    NormalSegment (last ++ classSuffix) := by
  have hlength : 6 ≤ (last ++ classSuffix).length := by
    rw [List.length_append]
    exact Nat.le_add_left 6 last.length
  have hne : ∀ short : Text, short.length < 6 → last ++ classSuffix ≠ short := by
    intro short hshort heq
    rw [heq] at hlength
    omega
  refine ⟨hne [] (by decide), hne ['.'] (by decide), hne ['.', '.'] (by decide), ?_⟩
  rw [List.mem_append]
  intro hmem
  rcases hmem with hlast | hsuffix
  · exact h hlast
  · revert hsuffix
    decide

/-- The path of a class's file is normal exactly when the class's name is plain. -/
theorem isNormal_ofClass_iff {name : ClassName} : (ofClass name).IsNormal ↔ name.IsPlain := by
  obtain ⟨front, last, hname, hsplit⟩ :=
    Text.splitOn_append_of_not_mem (show '/' ∉ classSuffix by decide) name.text
  have hsegments : (ofClass name).segments = front ++ [last ++ classSuffix] := hsplit
  have hfront : name.segments.dropLast = front := by
    rw [ClassName.segments, hname, List.dropLast_concat]
  constructor
  · intro hnormal
    refine ⟨fun hmem => ?_, fun segment hsegment => ?_⟩
    · exact hnormal.backslash_not_mem (List.mem_append_left _ hmem)
    · rw [hfront] at hsegment
      have hhere := hnormal segment (by rw [hsegments]; exact List.mem_append_left _ hsegment)
      exact ⟨hhere.2.1, hhere.2.2.1⟩
  · intro hplain segment hsegment
    have hbackslash : ∀ piece ∈ front ++ [last], '\\' ∉ piece := by
      intro piece hpiece hmem
      exact hplain.backslash_not_mem (Text.mem_of_mem_piece (hname ▸ hpiece) hmem)
    rw [hsegments] at hsegment
    rcases List.mem_append.mp hsegment with hmem | hmem
    · obtain ⟨hdot, hdots⟩ := hplain.dots_not_mem segment (hfront ▸ hmem)
      refine ⟨?_, hdot, hdots, hbackslash segment (List.mem_append_left _ hmem)⟩
      rintro rfl
      exact name.valid.no_empty_segment (by rw [hname]; exact List.mem_append_left _ hmem)
    · rw [List.mem_singleton.mp hmem]
      exact normalSegment_append_classSuffix (hbackslash last (by simp))

/-- The normal paths are those that are read as themselves. -/
theorem isNormal_iff_parse : path.IsNormal ↔ parse path.text = .ok path :=
  ⟨parse_of_isNormal, isNormal_of_parse⟩

/-- What a path is read back as, once it was written as JSON. -/
theorem ofJson?_parse?_compress (path : EntryPath) :
    (Json.parse? path.toJson.compress).bind ofJson? = some (parse path.text) := by
  rw [toJson, Json.parse?_compress (.str _)]
  rfl

/-- What is asked of the text of a normal path. -/
theorem isNormal_iff_text : path.IsNormal ↔
    '\\' ∉ path.text ∧ path.text.head? ≠ some '/' ∧ path.text.getLast? ≠ some '/' ∧
      ∀ segment ∈ path.segments, segment ≠ [] ∧ segment ≠ ['.'] ∧ segment ≠ ['.', '.'] := by
  constructor
  · intro h
    refine ⟨h.backslash_not_mem, h.head?_ne, h.getLast?_ne, fun segment hsegment => ?_⟩
    exact ⟨(h segment hsegment).1, (h segment hsegment).2.1, (h segment hsegment).2.2.1⟩
  · intro h segment hsegment
    obtain ⟨hbackslash, -, -, hsegments⟩ := h
    obtain ⟨hempty, hdot, hdots⟩ := hsegments segment hsegment
    exact ⟨hempty, hdot, hdots, fun hmem => hbackslash (Text.mem_of_mem_piece hsegment hmem)⟩

/-- The paths there are, when classes have certain names: those that a raw name or a JSON value is
read as, those of the classes' files, and those above other paths. -/
inductive Made (named : ClassName → Prop) : EntryPath → Prop
  | parsed {raw : Text} {path : EntryPath} : parse raw = .ok path → Made named path
  | decoded {json : Json} {path : EntryPath} : ofJson? json = some (.ok path) → Made named path
  | ofClass {name : ClassName} : named name → Made named (.ofClass name)
  | parent {path above : EntryPath} :
    Made named path → path.parent? = some above → Made named above
  | ancestor {path above : EntryPath} :
    Made named path → above ∈ path.ancestors → Made named above

theorem Made.isNormal {named : ClassName → Prop} (hplain : ∀ name, named name → name.IsPlain)
    (h : Made named path) : path.IsNormal := by
  induction h with
  | parsed hparse => exact isNormal_of_parse hparse
  | decoded hjson =>
    obtain ⟨raw, _, hparse⟩ := Option.map_eq_some_iff.mp hjson
    exact isNormal_of_parse hparse
  | ofClass hname => exact isNormal_ofClass_iff.mpr (hplain _ hname)
  | parent _ habove ih => exact isNormal_of_parent? ih habove
  | ancestor _ habove ih => exact isNormal_of_mem_ancestors ih habove

end EntryPath

namespace Injection

variable {required : NameSet} {catalog : Catalog} {fs : FileSystem} {added : List ClassName}
  {writer writer' : ZipWriter}

/-- Classes with plain names leave an orderly archive orderly. -/
theorem orderly_inject (horderly : writer.Orderly)
    (hplain : ∀ name ∈ required.names, name.IsPlain)
    (h : inject required catalog fs writer = .ok added writer') : writer'.Orderly := by
  refine ⟨(ZipWriter.keptByWrites_nodup.inject required catalog fs).ok horderly.nodup h, ?_⟩
  obtain ⟨found, hfound, -, -, rfl⟩ := inject_eq_ok h
  intro e he
  rcases List.mem_append.mp he with he | he
  · exact horderly.normal e he
  · obtain ⟨f, hf, hpath⟩ := mem_additions he
    have hname : f.1 ∈ required.names := by
      rw [← hfound]
      exact List.mem_map_of_mem (List.mem_filter.mp hf).1
    have hnormal := EntryPath.isNormal_ofClass_iff.mpr (hplain f.1 hname)
    rcases hpath with hsame | habove
    · exact hsame ▸ hnormal
    · exact EntryPath.isNormal_of_mem_ancestors hnormal habove.2

/-- The archive is opened as it was written exactly when the classes put into it have plain
names. -/
theorem opened_as_written_iff (horderly : writer.Orderly)
    (h : inject required catalog fs writer = .ok added writer') (hlegible : writer'.Legible)
    (path : Path) :
    (∃ tree, ZipTree.ofImage path writer'.image = .ok tree ∧ tree.list = writer'.list) ↔
      ∀ name ∈ required.names, name.IsPlain := by
  constructor
  · intro hopened name hname
    obtain ⟨tree, htree, hlist⟩ := hopened
    have hpaths : tree.entries.map Prod.fst = writer'.paths := by
      rw [← tree.map_path_list, hlist]
      simp [ZipWriter.list, ZipWriter.paths]
    have hmem : EntryPath.ofClass name ∈ writer'.paths := mem_paths_of_inject h hname
    obtain ⟨e, he, hpath⟩ := List.mem_map.mp (hpaths ▸ hmem)
    rw [← EntryPath.isNormal_ofClass_iff, ← hpath]
    exact (ZipTree.indexed_of_ofImage htree).normal e he
  · intro hplain
    have horderly' := orderly_inject horderly hplain h
    obtain ⟨tree, htree, hlist, -⟩ := ZipWriter.ofImage_of_readBack horderly'
      (ZipWriter.readBack_of_legible horderly' hlegible) path
    exact ⟨tree, htree, hlist⟩

end Injection

namespace EntryPath

/-- All paths are normal as long as the names of classes are plain. Normal paths, and no others, are
read back from their text and from JSON, and support classes are found under the paths they were
written to exactly when their names are plain. -/
theorem made_paths_normal_iff_plain (named : ClassName → Prop) :
    ((∀ path, Made named path → path.IsNormal) ↔ ∀ name, named name → name.IsPlain) ∧
      (∀ path : EntryPath, path.IsNormal ↔
        '\\' ∉ path.text ∧ path.text.head? ≠ some '/' ∧ path.text.getLast? ≠ some '/' ∧
          ∀ segment ∈ path.segments, segment ≠ [] ∧ segment ≠ ['.'] ∧ segment ≠ ['.', '.']) ∧
      (∀ path : EntryPath, path.IsNormal ↔ parse path.text = .ok path) ∧
      (∀ path : EntryPath, path.IsNormal ↔
        (Json.parse? path.toJson.compress).bind ofJson? = some (.ok path)) ∧
      ∀ (required : NameSet) (catalog : Catalog) (fs : FileSystem) (added : List ClassName)
        (writer writer' : ZipWriter) (archive : Path), writer.Orderly →
        Injection.inject required catalog fs writer = .ok added writer' → writer'.Legible →
        ((∃ tree, ZipTree.ofImage archive writer'.image = .ok tree ∧
            tree.list = writer'.list) ↔
          ∀ name ∈ required.names, name.IsPlain) := by
  refine ⟨⟨fun h name hname => ?_, fun h path hpath => hpath.isNormal h⟩,
    fun path => isNormal_iff_text, fun path => isNormal_iff_parse, fun path => ?_, ?_⟩
  · exact isNormal_ofClass_iff.mp (h _ (.ofClass hname))
  · rw [ofJson?_parse?_compress, Option.some.injEq]
    exact isNormal_iff_parse
  · intro required catalog fs added writer writer' archive horderly hinject hlegible
    exact Injection.opened_as_written_iff horderly hinject hlegible archive

/-- A name that is not plain: its class's file lies above the root, and no reading makes its
path. -/
theorem made_above_root :
    ∃ name, ClassName.ofText "../x".toList = .ok name ∧ Made (fun _ => True) (ofClass name) ∧
      ¬(ofClass name).IsNormal ∧
      parse (ofClass name).text = .error (.escapes "../x.class".toList) := by
  refine ⟨⟨"../x".toList, by decide, by decide, by decide⟩, by rfl, .ofClass trivial, ?_, ?_⟩
  · decide
  · decide

end EntryPath

end Retarget
