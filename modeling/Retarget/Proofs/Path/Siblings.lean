import Retarget.Path

/-!
A path that ends in a name has what leads to the name in front of it. The file beside it with a
suffix in its name has a front that passes through the same places, and another name.
-/
namespace Retarget.Path

open Text

def liveSteps (t : Text) : List Text :=
  (t.splitOn '/').filter fun piece => !isIdle piece

theorem liveSteps_append_slash (t rest : Text) :
    liveSteps (t ++ '/' :: rest) = liveSteps t ++ liveSteps rest := by
  simp [liveSteps, splitOn_append_sep]

theorem liveSteps_nil : liveSteps [] = [] := rfl

theorem liveSteps_slash (t : Text) : liveSteps ('/' :: t) = liveSteps t :=
  liveSteps_append_slash [] t

theorem liveSteps_append_last_slash (t : Text) : liveSteps (t ++ ['/']) = liveSteps t := by
  rw [liveSteps_append_slash, liveSteps_nil, List.append_nil]

/-- A dot that is a piece of its own is passed over. -/
theorem liveSteps_dot {t : Text} (h : t = [] ∨ ∃ rest, t = '/' :: rest) :
    liveSteps ('.' :: t) = liveSteps t := by
  rcases h with rfl | ⟨rest, rfl⟩
  · rfl
  · rw [liveSteps_slash]
    exact liveSteps_append_slash ['.'] rest

theorem joinWith_append {sep : Char} {left right : List Text} (hleft : left ≠ [])
    (hright : right ≠ []) :
    joinWith sep (left ++ right) = joinWith sep left ++ sep :: joinWith sep right := by
  induction left with
  | nil => exact absurd rfl hleft
  | cons piece rest ih =>
    cases rest with
    | nil =>
      cases right with
      | nil => exact absurd rfl hright
      | cons next others => rfl
    | cons next others =>
      have hnext := ih (by simp)
      simp only [List.cons_append] at hnext ⊢
      simp only [joinWith, hnext, List.append_assoc, List.cons_append]

def withoutIdleEnd (t : Text) : Text :=
  joinWith '/' ((t.splitOn '/').reverse.dropWhile isIdle).reverse

/-- The pieces of a text are those that are kept and idle ones after them. -/
theorem splitOn_eq_kept_append (t : Text) :
    ∃ idle, t.splitOn '/' = ((t.splitOn '/').reverse.dropWhile isIdle).reverse ++ idle ∧
      ∀ piece ∈ idle, isIdle piece = true := by
  refine ⟨((t.splitOn '/').reverse.takeWhile isIdle).reverse, ?_, ?_⟩
  · rw [← List.reverse_append, List.takeWhile_append_dropWhile, List.reverse_reverse]
  · intro piece hpiece
    exact List.all_eq_true.mp List.all_takeWhile piece (List.mem_reverse.mp hpiece)

theorem withoutIdleEnd_prefix (t : Text) : withoutIdleEnd t <+: t := by
  obtain ⟨idle, hpieces, _⟩ := splitOn_eq_kept_append t
  have htext := joinWith_splitOn '/' t
  unfold withoutIdleEnd
  generalize ((t.splitOn '/').reverse.dropWhile isIdle).reverse = kept at hpieces ⊢
  by_cases hkept : kept = []
  · subst hkept
    exact List.nil_prefix
  · by_cases hidle : idle = []
    · rw [hpieces, hidle, List.append_nil] at htext
      exact ⟨[], by rw [List.append_nil, htext]⟩
    · rw [hpieces, joinWith_append hkept hidle] at htext
      exact ⟨_, htext⟩

theorem liveSteps_withoutIdleEnd (t : Text) : liveSteps (withoutIdleEnd t) = liveSteps t := by
  obtain ⟨idle, hpieces, hidle⟩ := splitOn_eq_kept_append t
  have hslash : ∀ piece ∈ t.splitOn '/', '/' ∉ piece := fun _ => sep_not_mem_of_mem_splitOn
  have hnone : idle.filter (fun piece => !isIdle piece) = [] := by
    simpa using hidle
  unfold withoutIdleEnd
  generalize ((t.splitOn '/').reverse.dropWhile isIdle).reverse = kept at hpieces ⊢
  rw [liveSteps, liveSteps, hpieces, List.filter_append, hnone, List.append_nil]
  by_cases hkept : kept = []
  · subst hkept
    rfl
  · rw [splitOn_joinWith hkept]
    intro piece hpiece
    exact hslash piece (by rw [hpieces]; exact List.mem_append_left _ hpiece)

/-- The text of a path is what leads to its last component, and that component's name. -/
structure EndsIn (path : Path) (front name : Text) : Prop where
  text_eq : path.text = front ++ name
  front_ends : front = [] ∨ ∃ before, front = before ++ ['/']
  name_ne : name ≠ [] ∧ name ≠ ['.'] ∧ name ≠ ['.', '.']
  no_slash : '/' ∉ name

theorem head_piece_dot {t : Text} (h : (t.splitOn '/').head? = some ['.']) :
    ∃ rest, t = '.' :: rest ∧ (rest = [] ∨ ∃ others, rest = '/' :: others) := by
  cases t with
  | nil => simp [splitOn] at h
  | cons c cs =>
    by_cases hc : c = '/'
    · simp [splitOn, hc] at h
    · cases cs with
      | nil =>
        simp only [splitOn, hc, if_false, List.head?_cons, Option.some.injEq] at h
        exact ⟨[], h, Or.inl rfl⟩
      | cons d ds =>
        by_cases hd : d = '/'
        · subst hd
          simp only [splitOn, hc, if_true, if_false, List.head?_cons, Option.some.injEq,
            List.cons.injEq, and_true] at h
          exact ⟨'/' :: ds, by rw [h], Or.inr ⟨ds, rfl⟩⟩
        · cases hs : splitOn '/' ds with
          | nil => exact absurd hs (splitOn_ne_nil '/' ds)
          | cons p ps => simp [splitOn, hc, hd, hs] at h

namespace EndsIn

variable {path : Path} {front name before : Text}

theorem not_idle (h : path.EndsIn front name) : isIdle name = false := by
  simp [isIdle, h.name_ne.1, h.name_ne.2.1]

theorem pieces (h : path.EndsIn (before ++ ['/']) name) :
    path.text.splitOn '/' = before.splitOn '/' ++ [name] := by
  rw [h.text_eq, List.append_assoc, List.singleton_append, splitOn_append_sep,
    splitOn_of_not_mem h.no_slash]

theorem pieces_of_nil (h : path.EndsIn [] name) : path.text.splitOn '/' = [name] := by
  rw [h.text_eq, List.nil_append, splitOn_of_not_mem h.no_slash]

theorem fileName?_eq (h : path.EndsIn front name) : path.fileName? = some name := by
  have hbody : bodyComponent? name = some (.name name) := by
    simp [bodyComponent?, h.name_ne.1, h.name_ne.2.1, h.name_ne.2.2]
  have hlast : path.components.getLast? = some (.name name) := by
    rcases h.front_ends with rfl | ⟨before, rfl⟩
    · simp [components, h.pieces_of_nil, hbody]
    · simp [components, h.pieces, hbody]
  rw [fileName?, hlast]

/-- How many characters of a path come before what its last component is cut from. -/
def lead (path : Path) : Nat :=
  if path.isAbsolute ∨ (path.text.splitOn '/').head? = some ['.'] then 1 else 0

theorem dropLast_of_nil (h : path.EndsIn [] name) : path.dropLast = ⟨[]⟩ := by
  have habsolute : path.isAbsolute = false := by
    rw [isAbsolute, h.text_eq, List.nil_append]
    cases name with
    | nil => rfl
    | cons c cs => simpa using fun hc : c = '/' => h.no_slash (by simp [hc])
  simp [dropLast, habsolute, h.pieces_of_nil, h.name_ne.2.1, h.not_idle, joinWith]

/-- What is left of a path's body, when the name and the idle pieces around it are cut off. -/
private theorem kept_eq (h : path.EndsIn (before ++ ['/']) name) :
    (((splitOn '/' (path.text.drop (lead path))).reverse.dropWhile isIdle).drop 1).dropWhile
        isIdle =
      (splitOn '/' (before.drop (lead path))).reverse.dropWhile isIdle := by
  by_cases hle : lead path ≤ before.length
  · rw [h.text_eq, List.append_assoc, List.singleton_append, List.drop_append_of_le_length hle,
      splitOn_append_sep, splitOn_of_not_mem h.no_slash, List.reverse_append]
    simp [h.not_idle]
  · have hlead : lead path = 1 ∧ before = [] := by
      have hle_one : lead path ≤ 1 := by
        unfold lead
        split <;> omega
      exact ⟨by omega, List.length_eq_zero_iff.mp (by omega)⟩
    simp [h.text_eq, hlead.1, hlead.2, splitOn_of_not_mem h.no_slash, h.not_idle, splitOn,
      show isIdle [] = true from rfl]

theorem dropLast_eq (h : path.EndsIn (before ++ ['/']) name) :
    path.dropLast =
      ⟨path.text.take (lead path) ++ withoutIdleEnd (before.drop (lead path))⟩ := by
  rw [withoutIdleEnd, ← h.kept_eq]
  rfl

/-- Cutting a path before its name keeps the places that it passes through. -/
theorem liveSteps_dropLast (h : path.EndsIn (before ++ ['/']) name) :
    liveSteps path.dropLast.text = liveSteps before := by
  rw [h.dropLast_eq]
  by_cases habsolute : path.isAbsolute = true
  · have hlead : lead path = 1 := by simp [lead, habsolute]
    have htake : path.text.take 1 = ['/'] := by
      have hhead : path.text.head? = some '/' := by simpa [isAbsolute] using habsolute
      obtain ⟨rest, hrest⟩ := List.head?_eq_some_iff.mp hhead
      rw [hrest]
      rfl
    rw [hlead, htake, List.singleton_append, liveSteps_slash, liveSteps_withoutIdleEnd]
    cases before with
    | nil => rfl
    | cons c cs =>
      have hc : c = '/' := by simpa [isAbsolute, h.text_eq] using habsolute
      rw [hc, liveSteps_slash, List.drop_one, List.tail_cons]
  · by_cases hdot : (before.splitOn '/').head? = some ['.']
    · have hlead : lead path = 1 := by
        cases hs : before.splitOn '/' <;> simp_all [lead, h.pieces]
      obtain ⟨rest, rfl, hrest⟩ := head_piece_dot hdot
      have htake : path.text.take 1 = ['.'] := by simp [h.text_eq]
      rw [hlead, htake, List.drop_one, List.tail_cons, liveSteps_dot hrest,
        List.singleton_append]
      have hkept : withoutIdleEnd rest = [] ∨ ∃ others, withoutIdleEnd rest = '/' :: others := by
        obtain ⟨tail, htail⟩ := withoutIdleEnd_prefix rest
        cases hw : withoutIdleEnd rest with
        | nil => exact Or.inl rfl
        | cons c cs =>
          rw [hw] at htail
          rcases hrest with rfl | ⟨others, rfl⟩
          · simp at htail
          · exact Or.inr ⟨cs, by rw [(List.cons.inj htail).1]⟩
      rw [liveSteps_dot hkept, liveSteps_withoutIdleEnd]
    · have hlead : lead path = 0 := by
        cases hs : before.splitOn '/' <;> simp_all [lead, h.pieces, splitOn_ne_nil]
      rw [hlead, List.take_zero, List.nil_append, List.drop_zero, liveSteps_withoutIdleEnd]

theorem dropLast_prefix (h : path.EndsIn front name) : path.dropLast.text <+: path.text := by
  rcases h.front_ends with rfl | ⟨before, rfl⟩
  · rw [h.dropLast_of_nil]
    exact List.nil_prefix
  · obtain ⟨rest, hrest⟩ := withoutIdleEnd_prefix (before.drop (lead path))
    by_cases hle : lead path ≤ before.length
    · refine ⟨rest ++ '/' :: name, ?_⟩
      rw [h.dropLast_eq]
      calc path.text.take (lead path) ++ withoutIdleEnd (before.drop (lead path)) ++
            (rest ++ '/' :: name)
          = path.text.take (lead path) ++ (before.drop (lead path) ++ '/' :: name) := by
            rw [List.append_assoc, ← List.append_assoc (withoutIdleEnd _), hrest]
        _ = path.text.take (lead path) ++ path.text.drop (lead path) := by
            rw [h.text_eq, List.append_assoc, List.singleton_append,
              List.drop_append_of_le_length hle]
        _ = path.text := List.take_append_drop ..
    · have hnil : before.drop (lead path) = [] := List.drop_eq_nil_of_le (by omega)
      rw [hnil] at hrest
      rw [h.dropLast_eq, hnil, (List.append_eq_nil_iff.mp hrest).1, List.append_nil]
      exact List.take_prefix ..

theorem isAbsolute_dropLast (h : path.EndsIn front name) :
    path.dropLast.isAbsolute = path.isAbsolute := by
  rcases h.front_ends with rfl | ⟨before, rfl⟩
  · have hhead : path.text.head? ≠ some '/' := by
      rw [h.text_eq, List.nil_append]
      intro hslash
      obtain ⟨rest, hrest⟩ := List.head?_eq_some_iff.mp hslash
      exact h.no_slash (by simp [hrest])
    rw [h.dropLast_of_nil, isAbsolute, isAbsolute]
    simpa using hhead
  · by_cases hempty : path.dropLast.text = []
    · have hnot : path.isAbsolute = false := by
        apply Bool.eq_false_iff.mpr
        intro habsolute
        rw [h.dropLast_eq] at hempty
        have hlead : lead path = 1 := by simp [lead, habsolute]
        rw [hlead, List.append_eq_nil_iff, List.take_eq_nil_iff] at hempty
        simp [h.text_eq] at hempty
      rw [hnot, isAbsolute, hempty]
      rfl
    · obtain ⟨rest, hrest⟩ := h.dropLast_prefix
      rw [isAbsolute, isAbsolute, ← hrest, List.head?_append, List.head?_eq_some_head hempty]
      rfl

end EndsIn

/-- A name joined to what leads to another name ends the path in its place. -/
theorem EndsIn.join_dropLast {path : Path} {front name other : Text} (h : path.EndsIn front name)
    (hother : other ≠ [] ∧ other ≠ ['.'] ∧ other ≠ ['.', '.']) (hslash : '/' ∉ other) :
    ∃ front', (path.dropLast.join ⟨other⟩).EndsIn front' other ∧
      liveSteps front' = liveSteps front ∧
      (path.dropLast.join ⟨other⟩).isAbsolute = path.isAbsolute := by
  have hrelative : isAbsolute ⟨other⟩ = false := by
    cases other with
    | nil => rfl
    | cons c cs => simpa [isAbsolute] using fun hc : c = '/' => hslash (by simp [hc])
  have hlive : liveSteps path.dropLast.text = liveSteps front := by
    rcases h.front_ends with rfl | ⟨before, rfl⟩
    · rw [h.dropLast_of_nil]
    · rw [h.liveSteps_dropLast, liveSteps_append_last_slash]
  have habsolute := h.isAbsolute_dropLast
  generalize path.dropLast = folder at hlive habsolute ⊢
  unfold join
  rw [hrelative]
  simp only [Bool.false_eq_true, if_false]
  split
  · next hend =>
    refine ⟨folder.text, ⟨rfl, ?_, hother, hslash⟩, hlive, ?_⟩
    · rcases hend with hempty | hlast
      · exact Or.inl hempty
      · exact Or.inr (List.getLast?_eq_some_iff.mp hlast)
    · rw [← habsolute, isAbsolute, isAbsolute]
      cases hfolder : folder.text with
      | nil => simpa [isAbsolute] using hrelative
      | cons c cs => rfl
  · next hend =>
    refine ⟨folder.text ++ ['/'], ⟨by simp, Or.inr ⟨_, rfl⟩, hother, hslash⟩, ?_, ?_⟩
    · rw [liveSteps_append_last_slash, hlive]
    · rw [← habsolute, isAbsolute, isAbsolute]
      cases hfolder : folder.text with
      | nil => exact absurd (Or.inl hfolder) hend
      | cons c cs => rfl

/-- A suffix is put into a name: the name begins and ends as before. -/
theorem suffixedName_eq (name suffix : Text) :
    ∃ stem tail, name = stem ++ tail ∧ suffixedName name suffix = stem ++ suffix ++ tail := by
  unfold suffixedName splitName
  cases h : name.beforeLast? '.' with
  | none => exact ⟨name, [], by simp, by simp⟩
  | some stem =>
    cases stem with
    | nil => exact ⟨name, [], by simp, by simp⟩
    | cons c cs => exact ⟨c :: cs, _, eq_append_of_beforeLast? h, rfl⟩

theorem length_suffixedName (name suffix : Text) :
    (suffixedName name suffix).length = name.length + suffix.length := by
  obtain ⟨stem, tail, hname, hsuffixed⟩ := suffixedName_eq name suffix
  rw [hsuffixed, hname]
  simp
  omega

/-- A name with a suffix is no longer than two characters only if it has one of each. -/
theorem suffixedName_ne {name suffix : Text} (hname : name ≠ [] ∧ name ≠ ['.'] ∧ name ≠ ['.', '.'])
    (hsuffix : suffix ≠ []) :
    suffixedName name suffix ≠ [] ∧ suffixedName name suffix ≠ ['.'] ∧
      suffixedName name suffix ≠ ['.', '.'] := by
  have hlength := length_suffixedName name suffix
  have hname_length : 0 < name.length := List.length_pos_iff.mpr hname.1
  have hsuffix_length : 0 < suffix.length := List.length_pos_iff.mpr hsuffix
  refine ⟨?_, ?_, ?_⟩
  · intro h
    simp [h] at hlength
    omega
  · intro h
    simp [h] at hlength
    omega
  · intro h
    obtain ⟨stem, tail, hsplit, hsuffixed⟩ := suffixedName_eq name suffix
    have hdots : ∀ c ∈ name, c = '.' := by
      intro c hc
      have hmem : c ∈ suffixedName name suffix := by
        rw [hsuffixed]
        rw [hsplit] at hc
        rcases List.mem_append.mp hc with hstem | htail
        · simp [hstem]
        · simp [htail]
      simpa [h] using hmem
    have hone : name.length = 1 := by
      simp [h] at hlength
      omega
    obtain ⟨c, hc⟩ := List.length_eq_one_iff.mp hone
    rw [hc] at hdots hname
    exact hname.2.1 (by rw [hdots c (by simp)])

theorem slash_not_mem_suffixedName {name suffix : Text} (hname : '/' ∉ name)
    (hsuffix : '/' ∉ suffix) : '/' ∉ suffixedName name suffix := by
  obtain ⟨stem, tail, hsplit, hsuffixed⟩ := suffixedName_eq name suffix
  rw [hsplit, List.mem_append, not_or] at hname
  rw [hsuffixed]
  simp only [List.mem_append, not_or]
  exact ⟨⟨hname.1, hsuffix⟩, hname.2⟩

theorem EndsIn.siblingWithSuffix_eq {path : Path} {front name : Text} (h : path.EndsIn front name)
    (suffix : Text) :
    path.siblingWithSuffix suffix = path.dropLast.join ⟨suffixedName name suffix⟩ := by
  rw [Path.siblingWithSuffix, h.fileName?_eq]
  simp only [withFileName, h.fileName?_eq]

/-- The file beside a path whose name has a suffix in it is reached through the same places. -/
theorem EndsIn.siblingWithSuffix {path : Path} {front name suffix : Text}
    (h : path.EndsIn front name) (hsuffix : suffix ≠ []) (hslash : '/' ∉ suffix) :
    ∃ front', (path.siblingWithSuffix suffix).EndsIn front' (suffixedName name suffix) ∧
      liveSteps front' = liveSteps front ∧
      (path.siblingWithSuffix suffix).isAbsolute = path.isAbsolute := by
  rw [h.siblingWithSuffix_eq]
  exact h.join_dropLast (suffixedName_ne h.name_ne hsuffix)
    (slash_not_mem_suffixedName h.no_slash hslash)

end Retarget.Path
