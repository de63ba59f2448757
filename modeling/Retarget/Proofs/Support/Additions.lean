import Retarget.Proofs.Destination.Appending
import Retarget.Proofs.EntryPath.Ancestors
import Retarget.Support.Injection

/-!
What support classes add to a destination. A class that it lacks is added after those directories
above it that are missing, outermost first. The classes come in ascending order, and a path above a
class's path that is a class's path too belongs to a class before it. So what is added for one class
never stands where a later one should: whether a class is added depends on what the destination held
at first, and no path is added twice.
-/
namespace Retarget

namespace EntryPath

theorem ofClass_inj {a b : ClassName} (h : ofClass a = ofClass b) : a = b := by
  have htext : a.text ++ classSuffix = b.text ++ classSuffix := EntryPath.mk.inj h
  obtain ⟨text, _⟩ := a
  obtain ⟨text', _⟩ := b
  cases List.append_cancel_right htext
  rfl

/-- A class whose file's path is above that of another comes before the other. -/
theorem precedes_of_mem_ancestors {a b : ClassName} (h : ofClass a ∈ (ofClass b).ancestors) :
    a.precedes b := by
  obtain ⟨part, hpart, hpath⟩ := List.mem_map.mp h
  obtain ⟨rest, hrest⟩ := Text.exists_of_mem_partsBefore hpart
  have htext : b.text ++ classSuffix = a.text ++ (classSuffix ++ '/' :: rest) := by
    rw [← List.append_assoc, ← show part = a.text ++ classSuffix from EntryPath.mk.inj hpath]
    exact hrest
  have hlength : a.text.length < b.text.length := by
    have hlengths := congrArg List.length htext
    simp only [List.length_append, List.length_cons] at hlengths
    omega
  obtain ⟨c, cs, hb⟩ : ∃ c cs, b.text = a.text ++ c :: cs := by
    have hprefix : a.text <+: b.text :=
      List.prefix_of_prefix_length_le ⟨_, htext.symm⟩ ⟨_, rfl⟩ (by omega)
    obtain ⟨tail, htail⟩ := hprefix
    cases tail with
    | nil => simp [← htail] at hlength
    | cons c cs => exact ⟨c, cs, htail.symm⟩
  rw [ClassName.precedes, decide_eq_true_eq, hb]
  exact Text.lt_append_cons a.text c cs

end EntryPath

namespace Injection

/-- What is added for one file: the missing ones of the directories above it, and the file. -/
def placed (present : List EntryPath) (path : EntryPath) (bytes : Bytes) :
    List (EntryPath × Node) :=
  (path.ancestors.filter (· ∉ present)).map (·, .directory) ++ [(path, .file bytes)]

def additions : (present : List EntryPath) → List (ClassName × Bytes) → List (EntryPath × Node)
  | _, [] => []
  | present, (name, bytes) :: rest =>
    let new := placed present (.ofClass name) bytes
    new ++ additions (present ++ new.map Prod.fst) rest

theorem map_fst_placed (present : List EntryPath) (path : EntryPath) (bytes : Bytes) :
    (placed present path bytes).map Prod.fst =
      path.ancestors.filter (· ∉ present) ++ [path] := by
  simp [placed, Function.comp_def]

variable {W : Type} [Destination W] [Appending W] {dest dest' : W}

open Appending (paths finished extend takes)

theorem place_of_open {path : EntryPath} (h : path ∉ paths dest) (hopen : finished dest = false)
    {bytes : Bytes} (htakes : takes dest bytes) :
    place path bytes dest = .ok () (extend dest (placed (paths dest) path bytes)) := by
  have hparents := Appending.createMissing_of_open path.nodup_ancestors hopen
  have hfree : path ∉ paths (extend dest
      ((path.ancestors.filter (· ∉ paths dest)).map (·, .directory))) := by
    rw [Appending.paths_extend, List.map_map, List.mem_append]
    rintro (hbefore | habove)
    · exact h hbefore
    · obtain ⟨above, hmem, rfl⟩ := List.mem_map.mp habove
      exact EntryPath.not_mem_ancestors _ (List.mem_filter.mp hmem).1
  have hwrite := Appending.writeFile_of_open hfree
    ((Appending.finished_extend dest _).trans hopen) ((Appending.takes_extend dest _ _).mpr htakes)
  rw [Appending.extend_extend] at hwrite
  exact bind_eq_ok.mpr ⟨(), _, hparents, hwrite⟩

/-- A class that cannot be taken is refused once there are directories above it. -/
theorem place_of_untaken (path : EntryPath) (hopen : finished dest = false) {bytes : Bytes}
    (h : ¬takes dest bytes) : ∃ fault dest', place path bytes dest = .error fault dest' := by
  have hparents := Appending.createMissing_of_open path.nodup_ancestors hopen
  have hlater : ¬takes (extend dest
      ((path.ancestors.filter (· ∉ paths dest)).map (·, .directory))) bytes := by
    rwa [Appending.takes_extend]
  obtain ⟨fault, hrefused⟩ : ∃ fault, Destination.writeFile path bytes _ = .error fault _ :=
    Appending.writeFile_of_refused (Or.inr (Or.inr hlater))
  exact ⟨fault, _, bind_eq_error.mpr (Or.inr ⟨(), _, hparents, hrefused⟩)⟩

/-- Nothing is placed in a finished destination. -/
theorem place_of_finished (path : EntryPath) (hfinished : finished dest = true) (bytes : Bytes) :
    ∃ fault, place path bytes dest = .error fault dest := by
  by_cases hall : ∀ above ∈ path.ancestors, above ∈ paths dest
  · obtain ⟨fault, hrefused⟩ : ∃ fault, Destination.writeFile path bytes dest = .error fault dest :=
      Appending.writeFile_of_refused (Or.inr (Or.inl hfinished))
    exact ⟨fault, bind_eq_error.mpr
      (Or.inr ⟨(), dest, Appending.createMissing_of_subset hall, hrefused⟩)⟩
  · obtain ⟨fault, hrefused⟩ := Appending.createMissing_of_finished hfinished hall
    exact ⟨fault, bind_eq_error.mpr (Or.inl hrefused)⟩

/-- A class placed before does not stand where a later one should. -/
theorem ofClass_mem_placed {present : List EntryPath} {a b : ClassName} {bytes : Bytes}
    (hab : a.precedes b) :
    EntryPath.ofClass b ∉ (placed present (.ofClass a) bytes).map Prod.fst := by
  have hirrefl : ¬a.precedes a := by
    rw [ClassName.precedes, decide_eq_true_eq]
    exact List.lt_irrefl a.text
  rw [map_fst_placed, List.mem_append]
  intro h
  rcases h with habove | hsame
  · have hba := EntryPath.precedes_of_mem_ancestors (List.mem_filter.mp habove).1
    exact hirrefl (ClassName.precedes_trans hab hba)
  · have hsame : b = a := EntryPath.ofClass_inj (List.mem_singleton.mp hsame)
    exact hirrefl (hsame ▸ hab)

theorem nodup_placed (present : List EntryPath) (path : EntryPath) (bytes : Bytes) :
    ((placed present path bytes).map Prod.fst).Nodup := by
  rw [map_fst_placed, ← List.concat_eq_append]
  exact (path.nodup_ancestors.filter _).concat fun h =>
    path.not_mem_ancestors (List.mem_filter.mp h).1

/-- So whether later classes are there already is as it was. -/
theorem listed_after_placed {present listed : List EntryPath} {name : ClassName}
    {rest : List (ClassName × Bytes)} (bytes : Bytes) (hfirst : ∀ f ∈ rest, name.precedes f.1)
    (hlisted : ∀ f ∈ rest, EntryPath.ofClass f.1 ∈ present ↔ EntryPath.ofClass f.1 ∈ listed) :
    ∀ f ∈ rest, EntryPath.ofClass f.1 ∈
        present ++ (placed present (.ofClass name) bytes).map Prod.fst ↔
      EntryPath.ofClass f.1 ∈ listed := by
  intro f hf
  rw [List.mem_append, ← hlisted f hf]
  exact or_iff_left (ofClass_mem_placed (hfirst f hf))

theorem lacked_after_placed {present : List EntryPath} {name : ClassName}
    {rest : List (ClassName × Bytes)} (bytes : Bytes) (hfirst : ∀ f ∈ rest, name.precedes f.1)
    (hlacked : ∀ f ∈ rest, EntryPath.ofClass f.1 ∉ present) :
    ∀ f ∈ rest, EntryPath.ofClass f.1 ∉
      present ++ (placed present (.ofClass name) bytes).map Prod.fst := by
  intro f hf hmem
  rw [listed_after_placed bytes hfirst (fun _ _ => Iff.rfl) f hf] at hmem
  exact hlacked f hf hmem

/-- A class whose path is taken is passed over. -/
theorem placeAll_cons_of_taken {name : ClassName} (bytes : Bytes) (rest : List (ClassName × Bytes))
    (h : EntryPath.ofClass name ∈ paths dest) :
    placeAll ((name, bytes) :: rest) dest = placeAll rest dest := by
  have hcontains : Destination.contains dest (EntryPath.ofClass name) = true :=
    Appending.contains_iff.mpr h
  simp only [placeAll, hcontains, if_true]

/-- A class that is placed comes before those placed after it. -/
theorem placeAll_cons_of_placed {name : ClassName} {bytes : Bytes} {rest : List (ClassName × Bytes)}
    {placedDest : W} {added : List ClassName} (h : EntryPath.ofClass name ∉ paths dest)
    (hplaced : place (.ofClass name) bytes dest = .ok () placedDest) :
    placeAll ((name, bytes) :: rest) dest = .ok added dest' ↔
      ∃ others, placeAll rest placedDest = .ok others dest' ∧ name :: others = added := by
  simp only [placeAll, Appending.contains_of_not_mem h, Bool.false_eq_true, if_false, hplaced]
  cases placeAll rest placedDest with
  | ok others later =>
    simp only [EStateM.Result.ok.injEq]
    constructor
    · rintro ⟨hadded, rfl⟩
      exact ⟨others, ⟨rfl, rfl⟩, hadded⟩
    · rintro ⟨_, ⟨rfl, rfl⟩, hadded⟩
      exact ⟨hadded, rfl⟩
  | error fault later => simp

/-- Placing classes in ascending order adds those that the destination lacked at first, if it can
take them all. -/
theorem placeAll_eq_ok_iff {found : List (ClassName × Bytes)} {listed : List EntryPath}
    {added : List ClassName} (hascending : found.Pairwise fun a b => a.1.precedes b.1)
    (hlisted : ∀ f ∈ found, EntryPath.ofClass f.1 ∈ paths dest ↔ EntryPath.ofClass f.1 ∈ listed) :
    placeAll found dest = .ok added dest' ↔
      (finished dest = true → ∀ f ∈ found, EntryPath.ofClass f.1 ∈ listed) ∧
      (∀ f ∈ found, EntryPath.ofClass f.1 ∉ listed → takes dest f.2) ∧
      added = (found.filter fun f => .ofClass f.1 ∉ listed).map Prod.fst ∧
      dest' = extend dest
        (additions (paths dest) (found.filter fun f => .ofClass f.1 ∉ listed)) := by
  induction found generalizing dest dest' added with
  | nil =>
    simp only [placeAll, additions, pure, EStateM.pure, Appending.extend_nil, List.filter_nil,
      List.map_nil, EStateM.Result.ok.injEq]
    exact ⟨fun h => ⟨by simp, by simp, h.1.symm, h.2.symm⟩,
      fun h => ⟨h.2.2.1.symm, h.2.2.2.symm⟩⟩
  | cons first rest ih =>
    obtain ⟨name, bytes⟩ := first
    obtain ⟨hfirst, hrest⟩ := List.pairwise_cons.mp hascending
    obtain ⟨hhere, hlater⟩ := List.forall_mem_cons.mp hlisted
    by_cases hthere : EntryPath.ofClass name ∈ paths dest
    · have hheld := hhere.mp hthere
      rw [placeAll_cons_of_taken bytes rest hthere,
        List.filter_cons_of_neg (by simpa using hheld), ih hrest hlater, List.forall_mem_cons,
        and_iff_right hheld, List.forall_mem_cons,
        and_iff_right fun hnot : EntryPath.ofClass name ∉ listed => absurd hheld hnot]
    · have hlacked : EntryPath.ofClass name ∉ listed := fun hc => hthere (hhere.mpr hc)
      rw [List.filter_cons_of_pos (by simpa using hlacked), List.map_cons, additions]
      by_cases hopen : finished dest = false
      · by_cases htakes : takes dest bytes
        · have hnext := listed_after_placed bytes hfirst hlater
          rw [← Appending.paths_extend] at hnext
          rw [placeAll_cons_of_placed hthere (place_of_open hthere hopen htakes)]
          simp only [ih hrest hnext, Appending.extend_extend, Appending.paths_extend,
            Appending.finished_extend, Appending.takes_extend, hopen, Bool.false_eq_true,
            IsEmpty.forall_iff, true_and, List.forall_mem_cons, hlacked, not_false_eq_true,
            forall_const, htakes]
          constructor
          · rintro ⟨others, ⟨hrest, rfl, rfl⟩, rfl⟩
            exact ⟨hrest, rfl, rfl⟩
          · rintro ⟨hrest, rfl, rfl⟩
            exact ⟨_, ⟨hrest, rfl, rfl⟩, rfl⟩
        · obtain ⟨fault, dest₁, hrefused⟩ := place_of_untaken (.ofClass name) hopen htakes
          simp [placeAll, Appending.contains_of_not_mem hthere, hrefused, hlacked, htakes]
      · have hfinished : finished dest = true := by simpa using hopen
        obtain ⟨fault, hrefused⟩ := place_of_finished (.ofClass name) hfinished bytes
        simp [placeAll, Appending.contains_of_not_mem hthere, hrefused, hfinished, hlacked]

/-- What is looked up is the bytes of every name, in the order of the names. -/
theorem lookUpAll_eq_ok {catalog : Catalog} {fs : FileSystem} {names : List ClassName}
    {found : List (ClassName × Bytes)} (h : lookUpAll catalog fs names = .ok found) :
    found.map Prod.fst = names ∧ ∀ f ∈ found, catalog.lookup fs f.1 = .ok (some f.2) := by
  induction names generalizing found with
  | nil =>
    cases h
    exact ⟨rfl, by simp⟩
  | cons name rest ih =>
    simp only [lookUpAll] at h
    cases hlookup : catalog.lookup fs name with
    | error fault => simp [hlookup] at h
    | ok bytes? =>
      cases bytes? with
      | none => simp [hlookup] at h
      | some bytes =>
        simp only [hlookup] at h
        cases hrest : lookUpAll catalog fs rest with
        | error fault =>
          rw [hrest] at h
          cases h
        | ok others =>
          rw [hrest] at h
          cases h
          obtain ⟨hnames, hbytes⟩ := ih hrest
          refine ⟨by rw [List.map_cons, hnames], ?_⟩
          intro f hf
          rcases List.mem_cons.mp hf with rfl | hf
          · exact hlookup
          · exact hbytes f hf

/-- What is added is the classes, and directories above them. -/
theorem mem_additions {present : List EntryPath} {found : List (ClassName × Bytes)}
    {e : EntryPath × Node} (h : e ∈ additions present found) :
    ∃ f ∈ found, e = (.ofClass f.1, .file f.2) ∨
      e.2 = .directory ∧ e.1 ∈ (EntryPath.ofClass f.1).ancestors := by
  induction found generalizing present with
  | nil => simp [additions] at h
  | cons f rest ih =>
    rw [additions] at h
    rcases List.mem_append.mp h with hplaced | hlater
    · refine ⟨f, List.mem_cons_self .., ?_⟩
      rcases List.mem_append.mp hplaced with habove | hsame
      · obtain ⟨above, hmem, rfl⟩ := List.mem_map.mp habove
        exact Or.inr ⟨rfl, (List.mem_filter.mp hmem).1⟩
      · exact Or.inl (List.mem_singleton.mp hsame)
    · obtain ⟨f', hf', hpath⟩ := ih hlater
      exact ⟨f', List.mem_cons_of_mem _ hf', hpath⟩

theorem mem_additions_of_mem {present : List EntryPath} {found : List (ClassName × Bytes)}
    {f : ClassName × Bytes} (h : f ∈ found) :
    (.ofClass f.1, .file f.2) ∈ additions present found := by
  induction found generalizing present with
  | nil => cases h
  | cons first rest ih =>
    rw [additions, List.mem_append]
    rcases List.mem_cons.mp h with rfl | h
    · exact Or.inl (by simp [placed])
    · exact Or.inr (ih h)

/-- What is added is added at paths where nothing was. -/
theorem not_mem_present_of_mem_additions {present : List EntryPath}
    {found : List (ClassName × Bytes)} (hascending : found.Pairwise fun a b => a.1.precedes b.1)
    (hlacked : ∀ f ∈ found, .ofClass f.1 ∉ present) {path : EntryPath}
    (h : path ∈ (additions present found).map Prod.fst) : path ∉ present := by
  induction found generalizing present with
  | nil => simp [additions] at h
  | cons first rest ih =>
    obtain ⟨hfirst, hrest⟩ := List.pairwise_cons.mp hascending
    obtain ⟨hhere, hlater⟩ := List.forall_mem_cons.mp hlacked
    rw [additions, List.map_append, List.mem_append] at h
    rcases h with hplaced | hadded
    · rw [map_fst_placed, List.mem_append] at hplaced
      rcases hplaced with habove | hsame
      · simpa using (List.mem_filter.mp habove).2
      · exact List.mem_singleton.mp hsame ▸ hhere
    · have hnext := lacked_after_placed first.2 hfirst hlater
      exact fun hmem => ih hrest hnext hadded (List.mem_append_left _ hmem)

theorem nodup_additions {present : List EntryPath} {found : List (ClassName × Bytes)}
    (hascending : found.Pairwise fun a b => a.1.precedes b.1)
    (hlacked : ∀ f ∈ found, .ofClass f.1 ∉ present) :
    ((additions present found).map Prod.fst).Nodup := by
  induction found generalizing present with
  | nil => simp [additions]
  | cons first rest ih =>
    obtain ⟨hfirst, hrest⟩ := List.pairwise_cons.mp hascending
    have hnext := lacked_after_placed first.2 hfirst (List.forall_mem_cons.mp hlacked).2
    rw [additions, List.map_append]
    refine List.nodup_append.mpr ⟨nodup_placed .., ih hrest hnext, ?_⟩
    rintro path hplaced _ hadded rfl
    exact not_mem_present_of_mem_additions hrest hnext hadded (List.mem_append_right _ hplaced)

/-- The recorded classes that a destination lacks are added to it with the catalog's bytes. -/
theorem inject_eq_ok {required : NameSet} {catalog : Catalog} {fs : FileSystem}
    {added : List ClassName} (h : inject required catalog fs dest = .ok added dest') :
    ∃ found : List (ClassName × Bytes), found.map Prod.fst = required.names ∧
      (∀ f ∈ found, catalog.lookup fs f.1 = .ok (some f.2)) ∧
      added = (found.filter fun f => .ofClass f.1 ∉ paths dest).map Prod.fst ∧
      dest' = extend dest
        (additions (paths dest) (found.filter fun f => .ofClass f.1 ∉ paths dest)) := by
  unfold inject at h
  cases hfound : lookUpAll catalog fs required.names with
  | error fault => simp [hfound] at h
  | ok found =>
    simp only [hfound] at h
    obtain ⟨hnames, hbytes⟩ := lookUpAll_eq_ok hfound
    have hascending : found.Pairwise fun a b => a.1.precedes b.1 := by
      have hall := required.ascending
      rw [← hnames] at hall
      exact List.pairwise_map.mp hall
    obtain ⟨-, -, hadded, hdest⟩ := (placeAll_eq_ok_iff hascending fun _ _ => Iff.rfl).mp h
    exact ⟨found, hnames, hbytes, hadded, hdest⟩

/-- What injecting adds is the recorded classes for which the destination had nothing. -/
theorem exists_new_of_inject {required : NameSet} {catalog : Catalog} {fs : FileSystem}
    {added : List ClassName} (h : inject required catalog fs dest = .ok added dest') :
    ∃ new : List (ClassName × Bytes), (new.Pairwise fun a b => a.1.precedes b.1) ∧
      (∀ f ∈ new, .ofClass f.1 ∉ paths dest) ∧
      (∀ f ∈ new, catalog.lookup fs f.1 = .ok (some f.2)) ∧
      new.map Prod.fst = required.names.filter (.ofClass · ∉ paths dest) ∧
      added = new.map Prod.fst ∧ dest' = extend dest (additions (paths dest) new) := by
  obtain ⟨found, hnames, hbytes, hadded, hdest⟩ := inject_eq_ok h
  have hascending : found.Pairwise fun a b => a.1.precedes b.1 :=
    List.pairwise_map.mp (hnames ▸ required.ascending)
  refine ⟨_, hascending.filter _, fun f hf => ?_, fun f hf => hbytes f (List.mem_filter.mp hf).1,
    ?_, hadded, hdest⟩
  · simpa using (List.mem_filter.mp hf).2
  · rw [← hnames, List.filter_map]
    rfl

/-- There is something at the path of every recorded class once they were put in. -/
theorem mem_paths_of_inject {required : NameSet} {catalog : Catalog} {fs : FileSystem}
    {added : List ClassName} (h : inject required catalog fs dest = .ok added dest')
    {name : ClassName} (hname : name ∈ required.names) : .ofClass name ∈ paths dest' := by
  obtain ⟨found, hfound, -, -, rfl⟩ := inject_eq_ok h
  obtain ⟨f, hf, rfl⟩ := List.mem_map.mp (hfound ▸ hname)
  rw [Appending.paths_extend, List.mem_append]
  by_cases hthere : EntryPath.ofClass f.1 ∈ paths dest
  · exact Or.inl hthere
  · have hlacked : f ∈ found.filter fun f => .ofClass f.1 ∉ paths dest :=
      List.mem_filter.mpr ⟨hf, by simpa using hthere⟩
    exact Or.inr (List.mem_map.mpr ⟨_, mem_additions_of_mem hlacked, rfl⟩)

end Injection

end Retarget
