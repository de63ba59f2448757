import Retarget.Proofs.FileSystem.Siblings
import Retarget.Proofs.Path.Components

/-!
Paths with the same components. Two of them may still denote different things: a slash at the end
asks for a directory, and a text can be too long for a file system while a shorter one for the same
components is not. Paths that are usable and end in a name denote the same when they are equal,
since their components tell every step of the way.
-/
namespace Retarget

namespace Path

/-- The step that a component makes; a root and a leading dot make none. -/
def Component.step? : Component → Option Text
  | .root | .current => none
  | .parent => some ['.', '.']
  | .name text => some text

theorem bodyComponent?_bind_step? (piece : Text) :
    (bodyComponent? piece).bind Component.step? = if isIdle piece then none else some piece := by
  unfold bodyComponent?
  by_cases hidle : piece = [] ∨ piece = ['.']
  · simp [hidle, isIdle]
  · have hlive : isIdle piece = false := by simpa [isIdle] using hidle
    rw [if_neg hidle, hlive]
    by_cases hup : piece = ['.', '.'] <;> simp [hup, Component.step?]

/-- The components tell the steps. -/
theorem liveSteps_eq_filterMap (path : Path) :
    liveSteps path.text = path.components.filterMap Component.step? := by
  have hbody : ∀ body, liveSteps body =
      ((body.splitOn '/').filterMap bodyComponent?).filterMap Component.step? := by
    intro body
    rw [List.filterMap_filterMap, liveSteps, ← List.filterMap_eq_filter]
    congr 1
    funext piece
    rw [bodyComponent?_bind_step?]
    cases hidle : isIdle piece <;> simp [Option.guard, hidle]
  obtain ⟨mark, front, body, hopens⟩ := path.exists_opens
  rw [hopens.components_eq, List.filterMap_append, ← hbody]
  cases hopens with
  | root htext => rw [htext, liveSteps_slash]; rfl
  | current htext hstarts => rw [htext, liveSteps_dot hstarts]; rfl
  | plain _ _ => rfl

/-- The components tell where the steps start. -/
theorem isAbsolute_eq_head (path : Path) :
    path.isAbsolute = (path.components.head? == some .root) := by
  obtain ⟨mark, front, body, hopens⟩ := path.exists_opens
  rw [hopens.components_eq]
  cases hopens with
  | root htext => simp [isAbsolute, htext]
  | current htext _ => simp [isAbsolute, htext]
  | plain hroot _ =>
    have hrelative : path.isAbsolute = false := by simpa [isAbsolute] using hroot
    rw [hrelative, List.nil_append, eq_comm, beq_eq_false_iff_ne]
    intro hhead
    have hmem := List.mem_of_mem_head? hhead
    obtain ⟨piece, -, hpiece⟩ := List.mem_filterMap.mp hmem
    unfold bodyComponent? at hpiece
    split at hpiece
    · simp at hpiece
    · split at hpiece <;> simp at hpiece

theorem EndsIn.liveSteps_eq {path : Path} {front name : Text} (h : path.EndsIn front name) :
    liveSteps path.text = liveSteps front ++ [name] := by
  have hname : liveSteps name = [name] := by
    rw [liveSteps, Text.splitOn_of_not_mem h.no_slash]
    simp [h.not_idle]
  rw [h.text_eq]
  rcases h.front_ends with rfl | ⟨before, rfl⟩
  · rw [List.nil_append, hname, liveSteps_nil, List.nil_append]
  · rw [List.append_assoc, List.singleton_append, liveSteps_append_slash, hname,
      liveSteps_append_last_slash]

end Path

namespace FileSystem

open Retarget.Path

variable {fs : FileSystem} {a b : Path}

def denoted? (fs : FileSystem) (path : Path) : Option (Location × Node) :=
  (fs.stat path).toOption

theorem isDirectory_eq_any (path : Path) :
    fs.isDirectory path = (fs.denoted? path).any (·.2 = .directory) := by
  unfold isDirectory denoted?
  rcases fs.stat path with _ | ⟨place, _ | content⟩ <;> rfl

def EqualPathsAgree (fs : FileSystem) (paths : List Path) : Prop :=
  ∀ a ∈ paths, ∀ b ∈ paths, a.same b = true → fs.denoted? a = fs.denoted? b

instance (paths : List Path) : Decidable (fs.EqualPathsAgree paths) :=
  inferInstanceAs (Decidable (∀ a ∈ paths, ∀ b ∈ paths, _))

theorem EqualPathsAgree.subset {paths fewer : List Path} (h : fs.EqualPathsAgree paths)
    (hsub : fewer ⊆ paths) : fs.EqualPathsAgree fewer :=
  fun a ha b hb => h a (hsub ha) b (hsub hb)

def IsPlain (path : Path) : Prop :=
  IsUsable path ∧ ∃ front name, path.EndsIn front name

/-- Equal paths that end in a name end at one place. -/
theorem stat_eq_of_same (ha : IsPlain a) (hb : IsPlain b) (hsame : a.same b = true) :
    fs.stat a = fs.stat b := by
  obtain ⟨husable, front, name, hends⟩ := ha
  obtain ⟨husable', front', name', hends'⟩ := hb
  have hcomponents := same_iff.mp hsame
  have hsteps : liveSteps front ++ [name] = liveSteps front' ++ [name'] := by
    rw [← hends.liveSteps_eq, ← hends'.liveSteps_eq, liveSteps_eq_filterMap,
      liveSteps_eq_filterMap, hcomponents]
  obtain ⟨hfront, hname⟩ := List.append_inj' hsteps rfl
  have habsolute : a.isAbsolute = b.isAbsolute := by
    rw [isAbsolute_eq_head, isAbsolute_eq_head, hcomponents]
  have hlocate : fs.locate a = fs.locate b := by
    rw [locate_of_endsIn fs hends, locate_of_endsIn fs hends', if_pos husable, if_pos husable',
      hfront, habsolute, List.singleton_inj.mp hname]
  rw [FileSystem.stat, FileSystem.stat, hlocate]

theorem equalPathsAgree_of_plain {paths : List Path} (h : ∀ path ∈ paths, IsPlain path) :
    fs.EqualPathsAgree paths := by
  intro a ha b hb hsame
  rw [denoted?, denoted?, stat_eq_of_same (h a ha) (h b hb) hsame]

end FileSystem

end Retarget
