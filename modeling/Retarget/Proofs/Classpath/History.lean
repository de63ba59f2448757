import Retarget.Classpath.Basic
import Retarget.Engine.Basic

/-!
What was looked up before does not matter. A tier is settled when all its roots have been opened.
Settling a tier first changes no answer, and a lookup settles nothing that settling would not, so
over files that stay as they are every answer is a function of the settled tiers. The same holds of
whole dialogues that leave files alone.
-/
namespace Retarget

namespace Root

/-- A root is opened once. -/
theorem ensureOpened_ensureOpened (fs : FileSystem) (root : Root) :
    (root.ensureOpened fs).ensureOpened fs = root.ensureOpened fs := by
  obtain ⟨path, state⟩ := root
  cases state with
  | closed =>
    simp only [ensureOpened, openPath]
    cases openTree fs path <;> rfl
  | unusable => rfl
  | opened archive => rfl

end Root

namespace Tier

def settled (fs : FileSystem) : Tier → Tier
  | .roots kind list => .roots kind (list.map (Root.ensureOpened fs))
  | tier => tier

theorem origin_settled (fs : FileSystem) (tier : Tier) :
    (tier.settled fs).origin = tier.origin := by
  cases tier <;> rfl

/-- Looking among roots that are open gives the same answer and changes none of them. -/
theorem findInRoots_settled (fs : FileSystem) (name : ClassName) (list : List Root) :
    findInRoots fs name (list.map (Root.ensureOpened fs)) =
      ((findInRoots fs name list).1, list.map (Root.ensureOpened fs)) := by
  induction list with
  | nil => rfl
  | cons root rest ih =>
    have hopen := Root.ensureOpened_ensureOpened fs root
    simp only [List.map_cons, findInRoots, Root.find, hopen, ih]
    cases (root.ensureOpened fs).answer fs name with
    | error fault => rfl
    | ok found => cases found <;> rfl

/-- The roots that a lookup opened are those that settling opens. -/
theorem map_ensureOpened_findInRoots (fs : FileSystem) (name : ClassName) (list : List Root) :
    (findInRoots fs name list).2.map (Root.ensureOpened fs) =
      list.map (Root.ensureOpened fs) := by
  induction list with
  | nil => rfl
  | cons root rest ih =>
    have hopen := Root.ensureOpened_ensureOpened fs root
    simp only [findInRoots, Root.find]
    cases (root.ensureOpened fs).answer fs name with
    | error fault => simp only [List.map_cons, hopen]
    | ok found =>
      cases found with
      | none => simp only [List.map_cons, hopen, ih]
      | some bytes => simp only [List.map_cons, hopen]

theorem find_settled (fs : FileSystem) (name : ClassName) (tier : Tier) :
    (tier.settled fs).find fs name = ((tier.find fs name).1, tier.settled fs) := by
  cases tier with
  | archive tree => rfl
  | roots kind list => simp only [settled, find, findInRoots_settled]
  | custom origin description look => rfl

theorem settled_find (fs : FileSystem) (name : ClassName) (tier : Tier) :
    (tier.find fs name).2.settled fs = tier.settled fs := by
  cases tier with
  | archive tree => rfl
  | roots kind list => simp only [find, settled, map_ensureOpened_findInRoots]
  | custom origin description look => rfl

theorem origin_find (fs : FileSystem) (name : ClassName) (tier : Tier) :
    (tier.find fs name).2.origin = tier.origin := by
  cases tier <;> rfl

/-- Looking in an archive opens nothing. -/
theorem find_of_archive {fs : FileSystem} {name : ClassName} {tier : Tier}
    (h : tier.origin = .archive) : (tier.find fs name).2 = tier := by
  cases tier with
  | archive tree => rfl
  | roots kind list => cases kind <;> cases h
  | custom origin description look => rfl

end Tier

namespace Classpath

def settled (fs : FileSystem) (classpath : Classpath) : Classpath :=
  ⟨classpath.tiers.map (Tier.settled fs)⟩

theorem resolveIn_settled (fs : FileSystem) (name : ClassName) (tiers : List Tier) :
    resolveIn fs name (tiers.map (Tier.settled fs)) =
      ((resolveIn fs name tiers).1, tiers.map (Tier.settled fs)) := by
  induction tiers with
  | nil => rfl
  | cons tier rest ih =>
    have horigin := Tier.origin_find fs name tier
    rcases hfind : tier.find fs name with ⟨found, tier'⟩
    rw [hfind] at horigin
    simp only [List.map_cons, resolveIn, Tier.find_settled, hfind, ih]
    cases found with
    | error fault => rfl
    | ok found =>
      cases found with
      | none => rfl
      | some bytes => simp only [Tier.origin_settled, horigin]

theorem map_settled_resolveIn (fs : FileSystem) (name : ClassName) (tiers : List Tier) :
    (resolveIn fs name tiers).2.map (Tier.settled fs) = tiers.map (Tier.settled fs) := by
  induction tiers with
  | nil => rfl
  | cons tier rest ih =>
    have hsettled := Tier.settled_find fs name tier
    rcases hfind : tier.find fs name with ⟨found, tier'⟩
    rw [hfind] at hsettled
    simp only [resolveIn, hfind]
    cases found with
    | error fault => simp only [List.map_cons, hsettled]
    | ok found =>
      cases found with
      | none => simp only [List.map_cons, hsettled, ih]
      | some bytes => simp only [List.map_cons, hsettled]

theorem projectClassIn_settled (fs : FileSystem) (name : ClassName) (tiers : List Tier) :
    projectClassIn fs name (tiers.map (Tier.settled fs)) =
      ((projectClassIn fs name tiers).1, tiers.map (Tier.settled fs)) := by
  induction tiers with
  | nil => rfl
  | cons tier rest ih =>
    simp only [List.map_cons, projectClassIn, Tier.origin_settled, Tier.find_settled, ih]
    split
    · rcases tier.find fs name with ⟨found, tier'⟩
      cases found with
      | error fault => rfl
      | ok found => cases found <;> rfl
    · rfl

/-- Only archives are asked, so no root is opened. -/
theorem snd_projectClassIn (fs : FileSystem) (name : ClassName) (tiers : List Tier) :
    (projectClassIn fs name tiers).2 = tiers := by
  induction tiers with
  | nil => rfl
  | cons tier rest ih =>
    simp only [projectClassIn]
    split
    · next harchive =>
      have hsame : (tier.find fs name).2 = tier := Tier.find_of_archive harchive
      rcases hfind : tier.find fs name with ⟨found, tier'⟩
      obtain rfl : tier' = tier := by rwa [hfind] at hsame
      cases found with
      | error fault => rfl
      | ok found => cases found <;> simp only [ih]
    · simp only [ih]

theorem resolve_settled (fs : FileSystem) (name : ClassName) (classpath : Classpath) :
    (classpath.settled fs).resolve fs name =
      ((classpath.resolve fs name).1, classpath.settled fs) := by
  simp only [resolve, settled, resolveIn_settled]

theorem settled_resolve (fs : FileSystem) (name : ClassName) (classpath : Classpath) :
    (classpath.resolve fs name).2.settled fs = classpath.settled fs := by
  simp only [resolve, settled, map_settled_resolveIn]

theorem isProjectClass_settled (fs : FileSystem) (name : ClassName) (classpath : Classpath) :
    (classpath.settled fs).isProjectClass fs name =
      ((classpath.isProjectClass fs name).1, classpath.settled fs) := by
  simp only [isProjectClass, settled, projectClassIn_settled]

theorem snd_isProjectClass (fs : FileSystem) (name : ClassName) (classpath : Classpath) :
    (classpath.isProjectClass fs name).2 = classpath := by
  simp only [isProjectClass, snd_projectClassIn]

end Classpath

def World.settled (world : World) : World :=
  { world with classpath := world.classpath.settled world.disk.files }

@[simp] theorem World.disk_settled (world : World) : world.settled.disk = world.disk := rfl

namespace Dialogue

variable {α : Type}

/-- A dialogue that leaves files alone gives in a settled world the answer that it gives in the
world itself, and leaves the settled world as it is. -/
theorem run_settled {d : Dialogue α} (h : d.LeavesFiles) (world : World) :
    d.run world.settled = ((d.run world).1, world.settled) := by
  induction d generalizing world with
  | done answer => rfl
  | resolve name next ih =>
    rcases hfound : world.classpath.resolve world.disk.files name with ⟨found, classpath⟩
    have hanswer := Classpath.resolve_settled world.disk.files name world.classpath
    have hlater := Classpath.settled_resolve world.disk.files name world.classpath
    rw [hfound] at hanswer hlater
    have hnext := ih found (h found) { world with classpath := classpath }
    simp only [World.settled, hlater] at hnext
    simp only [run, World.settled, hanswer, hfound, hnext]
  | isProjectClass name next ih =>
    rcases hfound : world.classpath.isProjectClass world.disk.files name with ⟨found, classpath⟩
    have hanswer := Classpath.isProjectClass_settled world.disk.files name world.classpath
    obtain rfl : classpath = world.classpath := by
      rw [← Classpath.snd_isProjectClass world.disk.files name world.classpath, hfound]
    rw [hfound] at hanswer
    have hnext := ih found (h found) world
    simp only [World.settled] at hnext
    simp only [run, World.settled, hanswer, hfound, hnext]
  | change step next ih => exact h.elim

/-- Such a dialogue only opens roots, and those as settling does. -/
theorem settled_run {d : Dialogue α} (h : d.LeavesFiles) (world : World) :
    (d.run world).2.settled = world.settled := by
  induction d generalizing world with
  | done answer => rfl
  | resolve name next ih =>
    have hlater := Classpath.settled_resolve world.disk.files name world.classpath
    simp only [run]
    rw [ih _ (h _), World.settled, hlater, World.settled]
  | isProjectClass name next ih =>
    have hlater := Classpath.snd_isProjectClass world.disk.files name world.classpath
    simp only [run]
    rw [ih _ (h _), World.settled, hlater, World.settled]
  | change step next ih => exact h.elim

end Dialogue

end Retarget
