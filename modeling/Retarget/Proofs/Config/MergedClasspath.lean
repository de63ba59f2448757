import Retarget.Config
import Retarget.Proofs.Classpath.Laziness
import Retarget.Proofs.FileSystem.EqualPaths

/-!
Dependency roots put together from the configuration file and the command line. A root that equals
one before it is left out. No lookup notices where equal paths denote the same: what the later root
holds the earlier one holds too, so the later one is only got to when both lack the class.
-/
namespace Retarget

namespace Config

open Retarget.Path

theorem addRoots_cons (roots more : List Path) (root : Path) :
    addRoots roots (root :: more) =
      addRoots (if roots.any (·.same root) then roots else roots ++ [root]) more := rfl

/-- What is added: the first of equal roots, unless one that equals it was there before. -/
theorem addRoots_eq (roots more : List Path) :
    addRoots roots more =
      roots ++ (more.filter fun root => !roots.any (·.same root)).eraseDupsBy Path.same := by
  induction more generalizing roots with
  | nil => exact (List.append_nil roots).symm
  | cons root more ih =>
    rw [addRoots_cons, ih]
    by_cases hthere : roots.any (·.same root) = true
    · rw [if_pos hthere, List.filter_cons_of_neg (by simp [hthere])]
    · have hrest : (more.filter fun later => !(roots ++ [root]).any (·.same later)) =
          (more.filter fun later => !roots.any (·.same later)).filter fun later =>
            later.same root = false := by
        rw [List.filter_filter]
        congr 1
        funext later
        have hsymm : root.same later = later.same root := BEq.comm
        cases hlater : later.same root <;> simp [hsymm, hlater]
      rw [if_neg hthere, List.filter_cons_of_pos (by simp [hthere]), List.eraseDupsBy_cons, hrest,
        List.append_assoc, List.singleton_append]

end Config

theorem Folder.same_locate {a b : Path} (h : a.same b = true) (path : EntryPath) :
    (Folder.locate ⟨a⟩ path).same (Folder.locate ⟨b⟩ path) = true := by
  have hslash : ∀ segment ∈ path.segments, '/' ∉ segment := fun segment =>
    Text.sep_not_mem_of_mem_splitOn
  unfold locate
  generalize path.segments = segments at hslash
  induction segments generalizing a b with
  | nil => exact h
  | cons segment rest ih =>
    rw [List.forall_mem_cons] at hslash
    exact ih (Path.same_join h hslash.1) hslash.2

section Opened

variable {fs : FileSystem} {name : ClassName} {a b : Path}

theorem Folder.read_eq_bind (folder : Folder) (path : EntryPath) :
    folder.read fs path = (fs.denoted? (folder.locate path)).bind (·.2.content?) := by
  unfold read FileSystem.denoted?
  rcases fs.stat (folder.locate path) with _ | ⟨place, node⟩ <;> rfl

namespace ZipTree

/-- Where the file is said to be matters for messages only. -/
theorem toOption_read_withPath (tree : ZipTree) (path : Path) (entry : EntryPath) :
    (({ tree with path := path } : ZipTree).read entry).toOption = (tree.read entry).toOption := by
  unfold read
  cases tree.entries.lookup entry with
  | none => rfl
  | some member =>
    cases hpacked : member.packed? tree.image with
    | none => simp [hpacked]; rfl
    | some packed =>
      cases hdirectory : member.isDirectory with
      | true => simp [hpacked, hdirectory]
      | false =>
        cases hbytes : member.unpack? packed with
        | none =>
          simp [hpacked, hdirectory, hbytes]
          rfl
        | some bytes => simp [hpacked, hdirectory, hbytes]

theorem toOption_read_archive (tree : ZipTree) (entry : EntryPath) :
    (tree.archive.read fs entry).toOption = (tree.read entry).toOption := by
  simp only [archive]
  cases tree.read entry <;> rfl

theorem toOption_ofImage (path other : Path) (image : Bytes) :
    (ofImage other image).toOption =
      (ofImage path image).toOption.map ({ · with path := other }) := by
  unfold ofImage
  cases Zip.members? image with
  | none => rfl
  | some members =>
    cases hindex : index members <;> simp [hindex] <;> rfl

theorem toOption_open (h : fs.denoted? a = fs.denoted? b) :
    (ZipTree.open fs b).toOption = (ZipTree.open fs a).toOption.map ({ · with path := b }) := by
  unfold FileSystem.denoted? at h
  unfold «open»
  rcases ha : fs.stat a with kind | ⟨place, node⟩
  · rcases hb : fs.stat b with kind' | ⟨place', node'⟩
    · rfl
    · simp [ha, hb, Except.toOption] at h
  · rcases hb : fs.stat b with kind' | ⟨place', node'⟩
    · simp [ha, hb, Except.toOption] at h
    · obtain ⟨rfl, rfl⟩ : place = place' ∧ node = node' := by
        simpa [ha, hb, Except.toOption] using h
      cases node with
      | directory => rfl
      | file image => exact toOption_ofImage a b image

end ZipTree

namespace Classpath

open FileSystem

theorem nothing_iff_toOption {α : Type} {answer : Except Fault (Option α)} :
    nothing answer = true ↔ answer.toOption = some none := by
  rw [nothing_iff]
  cases answer <;> simp [Except.toOption]

def classPlace (name : ClassName) (root : Path) : Path :=
  Folder.locate ⟨root⟩ (.ofClass name)

namespace Source

/-- What a root holds is told from what is under its path and under the class's below it, but for
the text of a failure. -/
theorem toOption_rootAnswer (h : fs.denoted? a = fs.denoted? b)
    (hclass : fs.denoted? (classPlace name a) = fs.denoted? (classPlace name b)) :
    (rootAnswer fs a fs name).toOption = (rootAnswer fs b fs name).toOption := by
  have hdirectory : fs.isDirectory a = fs.isDirectory b := by
    rw [isDirectory_eq_any, isDirectory_eq_any, h]
  unfold rootAnswer openTree
  rw [hdirectory]
  by_cases hb : fs.isDirectory b = true
  · simp only [hb, if_true, Folder.archive, Folder.read_eq_bind]
    exact congrArg (fun found => some (found.bind (·.2.content?))) hclass
  · have hopen := ZipTree.toOption_open h
    rw [if_neg hb, if_neg hb]
    rcases ha : ZipTree.open fs a with fault | tree
    · rcases hb : ZipTree.open fs b with fault' | tree'
      · rfl
      · simp [ha, hb, Except.toOption] at hopen
    · rcases hb : ZipTree.open fs b with fault' | tree'
      · simp [ha, hb, Except.toOption] at hopen
      · obtain rfl : tree' = { tree with path := b } := by
          simpa [ha, hb, Except.toOption] using hopen
        simp only [Except.map, ZipTree.toOption_read_archive, ZipTree.toOption_read_withPath]

def askedPaths (name : ClassName) (roots : List Path) : List Path :=
  roots ++ roots.map (classPlace name)

theorem lacks_of_same (kind : RootsKind) {roots : List Path}
    (h : fs.EqualPathsAgree (askedPaths name roots)) (ha : a ∈ roots) (hb : b ∈ roots)
    (hsame : a.same b = true) :
    Place.lacks fs name ⟨kind.origin, rootAnswer fs a⟩ =
      Place.lacks fs name ⟨kind.origin, rootAnswer fs b⟩ := by
  have hclass : ∀ root ∈ roots, classPlace name root ∈ askedPaths name roots := fun root hroot =>
    List.mem_append_right _ (List.mem_map_of_mem hroot)
  have hanswer : (rootAnswer fs a fs name).toOption = (rootAnswer fs b fs name).toOption :=
    toOption_rootAnswer (h a (List.mem_append_left _ ha) b (List.mem_append_left _ hb) hsame)
      (h _ (hclass a ha) _ (hclass b hb) (Folder.same_locate hsame _))
  rw [Bool.eq_iff_iff, Place.lacks, Place.lacks, nothing_iff_toOption, nothing_iff_toOption,
    hanswer]

/-- What is asked for among fewer roots is asked for among more. -/
theorem askedPaths_subset {fewer roots : List Path} (h : fewer ⊆ roots) :
    askedPaths name fewer ⊆ askedPaths name roots :=
  List.append_subset.mpr ⟨fun _ hroot => List.mem_append_left _ (h hroot),
    fun _ hroot => List.mem_append_right _ (List.map_subset _ h hroot)⟩

/-- A root that equals one before it is got to only when it lacks the class too. -/
theorem firstAnswer_skip {kind : RootsKind} {roots more : List Path} {root : Path}
    (h : fs.EqualPathsAgree (askedPaths name (roots ++ root :: more)))
    (hthere : roots.any (·.same root) = true) :
    firstAnswer fs name ((Source.roots kind (roots ++ root :: more)).places fs) =
      firstAnswer fs name ((Source.roots kind (roots ++ more)).places fs) := by
  obtain ⟨earlier, hmem, hsame⟩ := List.any_eq_true.mp hthere
  have hlacks := lacks_of_same kind h (List.mem_append_left _ hmem) (by simp) hsame
  simp only [Source.places, List.map_append, List.map_cons, firstAnswer_append]
  split
  · next hall =>
    have hearlier := List.all_eq_true.mp hall _ (List.mem_map_of_mem hmem)
    rw [firstAnswer_cons, ← hlacks, if_pos hearlier]
  · rfl

/-- A root that equals one before it changes no answer. -/
theorem firstAnswer_addRoots {kind : RootsKind} {roots more : List Path}
    (h : fs.EqualPathsAgree (askedPaths name (roots ++ more))) :
    firstAnswer fs name ((Source.roots kind (Config.addRoots roots more)).places fs) =
      firstAnswer fs name ((Source.roots kind (roots ++ more)).places fs) := by
  induction more generalizing roots with
  | nil => rw [List.append_nil]; rfl
  | cons root more ih =>
    rw [Config.addRoots_cons]
    by_cases hthere : roots.any (·.same root) = true
    · rw [if_pos hthere, firstAnswer_skip h hthere]
      apply ih
      apply h.subset
      apply askedPaths_subset
      intro path hpath
      rw [List.mem_append] at hpath ⊢
      exact hpath.imp_right (List.mem_cons_of_mem root)
    · rw [if_neg hthere, ih, List.append_assoc, List.singleton_append]
      rwa [List.append_assoc, List.singleton_append]

theorem filter_archive_roots (kind : RootsKind) (roots : List Path) :
    ((Source.roots kind roots).places fs).filter (·.origin = .archive) = [] := by
  apply List.filter_eq_nil_iff.mpr
  intro place hplace
  obtain ⟨root, -, rfl⟩ := List.mem_map.mp hplace
  cases kind <;> simp [RootsKind.origin]

end Source

theorem firstAnswer_exchange {before middle middle' after : List Place}
    (h : firstAnswer fs name middle = firstAnswer fs name middle') :
    firstAnswer fs name (before ++ (middle ++ after)) =
      firstAnswer fs name (before ++ (middle' ++ after)) := by
  simp only [firstAnswer_append, ← nothing_firstAnswer, h]

end Classpath

end Opened

namespace Classpath

def Lookup.name : Lookup → ClassName
  | .resolve name | .isProjectClass name => name

/-- The tier of dependency roots answers the same, wherever it is, when its roots do. -/
theorem eager_exchange_roots {fs : FileSystem} {before after : List Place}
    {kind : RootsKind} {roots roots' : List Path} (lookup : Lookup)
    (h : firstAnswer fs lookup.name ((Source.roots kind roots).places fs) =
      firstAnswer fs lookup.name ((Source.roots kind roots').places fs)) :
    lookup.eager fs (before ++ ((Source.roots kind roots).places fs ++ after)) =
      lookup.eager fs (before ++ ((Source.roots kind roots').places fs ++ after)) := by
  cases lookup with
  | resolve name => exact congrArg Answer.resolved (firstAnswer_exchange h)
  | isProjectClass name =>
    simp only [Lookup.eager, eagerProject, List.filter_append, Source.filter_archive_roots]

end Classpath

namespace Config

open Classpath

/-- The merged roots are those of the file, then those of the command line in order, each that
equals none before it. A tier of them answers every lookup as a tier of all roots of both does, if
those of the paths asked for that are equal denote the same; and they do where all of them are
usable and end in names. -/
theorem merged_classpath_loses_no_lookup (config : Config) (input : Path) (cli : Overrides) :
    (config.merge input cli).settings.classpath = config.classpath ++
        (cli.classpath.filter fun root => !config.classpath.any (·.same root)).eraseDupsBy
          Path.same ∧
      (∀ (fs : FileSystem) (before after : List Source) (lookups : List Lookup),
        (∀ lookup ∈ lookups, fs.EqualPathsAgree
          (Source.askedPaths lookup.name (config.classpath ++ cli.classpath))) →
        (Lookup.performAll fs lookups (ofSources (before ++
            .roots .classpath (config.merge input cli).settings.classpath :: after))).1 =
          (Lookup.performAll fs lookups (ofSources (before ++
            .roots .classpath (config.classpath ++ cli.classpath) :: after))).1) ∧
      ∀ (fs : FileSystem) (paths : List Path), (∀ path ∈ paths, FileSystem.IsPlain path) →
        fs.EqualPathsAgree paths := by
  refine ⟨addRoots_eq .., ?_, fun fs paths h => FileSystem.equalPathsAgree_of_plain h⟩
  intro fs before after lookups hagree
  simp only [Lookup.fst_performAll, places_ofSources, List.flatMap_append, List.flatMap_cons]
  apply List.map_congr_left
  intro lookup hlookup
  apply eager_exchange_roots
  exact Source.firstAnswer_addRoots (hagree lookup hlookup)

/-- One root named three times, with and without a slash at its end. -/
theorem merged_repeated_root :
    let fs : FileSystem :=
      ⟨[], [(["lib".toList], .directory), (["lib".toList, "A.class".toList], .file [1])]⟩
    let config : Config := { classpath := [.ofString "lib", .ofString "missing.jar"] }
    let cli : Overrides := { classpath := [.ofString "lib/", .ofString "jdk", .ofString "jdk/."] }
    let lookups : List Lookup := [.resolve ⟨['A'], by decide, by decide, by decide⟩,
      .resolve ⟨['B'], by decide, by decide, by decide⟩]
    let merged := (config.merge (.ofString "app.jar") cli).settings.classpath
    merged = [.ofString "lib", .ofString "missing.jar", .ofString "jdk"] ∧
      (∀ lookup ∈ lookups, fs.EqualPathsAgree
        (Source.askedPaths lookup.name (config.classpath ++ cli.classpath))) ∧
      (Lookup.performAll fs lookups (ofSources [.roots .classpath merged])).1 =
        (Lookup.performAll fs lookups
          (ofSources [.roots .classpath (config.classpath ++ cli.classpath)])).1 := by
  intro fs config cli lookups merged
  have hagree : ∀ lookup ∈ lookups, fs.EqualPathsAgree
      (Source.askedPaths lookup.name (config.classpath ++ cli.classpath)) := by
    decide
  have hlookups := (merged_classpath_loses_no_lookup config (.ofString "app.jar") cli).2.1 fs [] []
    lookups hagree
  exact ⟨by decide, hagree, hlookups⟩

end Config

end Retarget
