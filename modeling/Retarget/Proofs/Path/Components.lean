import Retarget.Proofs.Path.Siblings

/-!
The components of edited paths. A path is a mark (a root, a leading dot or nothing) and a body whose
pieces give the other components. Cutting the last component off, or joining a name, changes the
body alone; so a path whose file name is replaced has the components it had, but for the last one.
-/
namespace Retarget.Path

open Text

section Pieces

theorem joinWith_prefix {kept : List Text} {text : Text} (h : kept <+: text.splitOn '/') :
    joinWith '/' kept <+: text := by
  obtain ⟨rest, hrest⟩ := h
  by_cases hnil : kept = []
  · rw [hnil]
    exact List.nil_prefix
  · by_cases hall : rest = []
    · have hwhole : joinWith '/' kept = text := by
        rw [hall, List.append_nil] at hrest
        rw [hrest, joinWith_splitOn]
      exact hwhole ▸ List.prefix_rfl
    · rw [← joinWith_splitOn '/' text, ← hrest, joinWith_append hnil hall]
      exact List.prefix_append _ _

theorem bodyComponent?_eq_none_iff {piece : Text} :
    bodyComponent? piece = none ↔ isIdle piece = true := by
  unfold bodyComponent?
  by_cases h : piece = [] ∨ piece = ['.']
  · simp [h, isIdle]
  · have hlive : isIdle piece = false := by simpa [isIdle] using h
    rw [if_neg h, hlive]
    split <;> simp

theorem filterMap_dropWhile_isIdle (pieces : List Text) :
    (pieces.dropWhile isIdle).filterMap bodyComponent? = pieces.filterMap bodyComponent? := by
  induction pieces with
  | nil => rfl
  | cons first rest ih =>
    cases hidle : isIdle first with
    | true =>
      rw [List.dropWhile_cons_of_pos hidle, ih, List.filterMap_cons,
        bodyComponent?_eq_none_iff.mpr hidle]
    | false => rw [List.dropWhile_cons_of_neg (by simp [hidle])]

/-- The pieces before the last that names something, without idle ones at their end. -/
def cutPieces (pieces : List Text) : List Text :=
  (((pieces.reverse.dropWhile isIdle).drop 1).dropWhile isIdle).reverse

theorem cutPieces_prefix (pieces : List Text) : cutPieces pieces <+: pieces := by
  rw [← List.reverse_suffix, cutPieces, List.reverse_reverse]
  exact (List.dropWhile_suffix _).trans ((List.drop_suffix 1 _).trans (List.dropWhile_suffix _))

/-- Cutting takes off the last component. -/
theorem filterMap_cutPieces {pieces : List Text} {last : Component}
    (h : (pieces.filterMap bodyComponent?).getLast? = some last) :
    pieces.filterMap bodyComponent? = (cutPieces pieces).filterMap bodyComponent? ++ [last] := by
  have hpieces : pieces.filterMap bodyComponent? =
      ((pieces.reverse.dropWhile isIdle).filterMap bodyComponent?).reverse := by
    rw [filterMap_dropWhile_isIdle, List.filterMap_reverse, List.reverse_reverse]
  rw [hpieces, cutPieces, List.filterMap_reverse]
  rw [hpieces, List.getLast?_reverse] at h
  cases hrest : pieces.reverse.dropWhile isIdle with
  | nil => simp [hrest] at h
  | cons first rest =>
    have hlive : isIdle first = false := by
      have hstop := List.head?_dropWhile_not isIdle pieces.reverse
      rw [hrest] at hstop
      simpa using hstop
    cases hfirst : bodyComponent? first with
    | none => simp [bodyComponent?_eq_none_iff.mp hfirst] at hlive
    | some component =>
      have hlast : component = last := by simpa [hrest, hfirst] using h
      rw [List.drop_one, List.tail_cons, filterMap_dropWhile_isIdle, List.filterMap_cons, hfirst,
        hlast, List.reverse_cons]

end Pieces

/-- How a path is written: the mark, the components that it stands for, and the body after it. -/
inductive Opens (path : Path) : Text → List Component → Text → Prop
  | root {body : Text} (text_eq : path.text = '/' :: body) : Opens path ['/'] [.root] body
  | current {body : Text} (text_eq : path.text = '.' :: body)
    (body_starts : body = [] ∨ ∃ rest, body = '/' :: rest) : Opens path ['.'] [.current] body
  | plain (no_root : path.text.head? ≠ some '/')
    (no_dot : (path.text.splitOn '/').head? ≠ some ['.']) : Opens path [] [] path.text

theorem exists_opens (path : Path) : ∃ mark front body, Opens path mark front body := by
  by_cases hroot : path.text.head? = some '/'
  · obtain ⟨body, hbody⟩ := List.head?_eq_some_iff.mp hroot
    exact ⟨_, _, body, .root hbody⟩
  · by_cases hdot : (path.text.splitOn '/').head? = some ['.']
    · obtain ⟨body, hbody, hstarts⟩ := head_piece_dot hdot
      exact ⟨_, _, body, .current hbody hstarts⟩
    · exact ⟨_, _, _, .plain hroot hdot⟩

theorem splitOn_dot {body : Text} (h : body = [] ∨ ∃ rest, body = '/' :: rest) :
    splitOn '/' ('.' :: body) = ['.'] :: (body.splitOn '/').tail ∧
      body.splitOn '/' = [] :: (body.splitOn '/').tail := by
  rcases h with rfl | ⟨rest, rfl⟩
  · exact ⟨rfl, rfl⟩
  · exact ⟨splitOn_append_sep '/' ['.'] rest, splitOn_append_sep '/' [] rest⟩

namespace Opens

variable {path : Path} {mark body : Text} {front : List Component}

/-- The mark gives its component, and each piece of the body that is not idle gives one. -/
theorem components_eq (h : path.Opens mark front body) :
    path.components = front ++ (body.splitOn '/').filterMap bodyComponent? := by
  unfold components
  cases h with
  | root htext =>
    have hpieces : splitOn '/' ('/' :: body) = [] :: body.splitOn '/' :=
      splitOn_append_sep '/' [] body
    simp [htext, hpieces, isAbsolute, bodyComponent?]
  | current htext hstarts =>
    obtain ⟨hpieces, hbody⟩ := splitOn_dot hstarts
    rw [hbody]
    simp [htext, hpieces, isAbsolute, bodyComponent?]
  | plain hroot hdot =>
    have habsolute : path.isAbsolute = false := by simpa [isAbsolute] using hroot
    simp [habsolute, hdot]

theorem dropLast_eq (h : path.Opens mark front body) :
    path.dropLast = ⟨mark ++ joinWith '/' (cutPieces (body.splitOn '/'))⟩ := by
  unfold dropLast
  cases h with
  | root htext => simp [htext, isAbsolute, cutPieces]
  | current htext hstarts =>
    obtain ⟨hpieces, -⟩ := splitOn_dot hstarts
    simp [htext, hpieces, cutPieces]
  | plain hroot hdot =>
    have habsolute : path.isAbsolute = false := by simpa [isAbsolute] using hroot
    simp [habsolute, hdot, cutPieces]

/-- The first pieces of the body follow the same mark. -/
theorem of_prefix (h : path.Opens mark front body) {kept : List Text}
    (hkept : kept <+: body.splitOn '/') :
    Opens ⟨mark ++ joinWith '/' kept⟩ mark front (joinWith '/' kept) := by
  cases h with
  | root _ => exact .root rfl
  | current _ hstarts =>
    refine .current rfl ?_
    obtain ⟨rest, hrest⟩ := hkept
    rw [(splitOn_dot hstarts).2] at hrest
    match kept with
    | [] => exact Or.inl rfl
    | [piece] =>
      obtain ⟨rfl, -⟩ := List.cons.inj hrest
      exact Or.inl rfl
    | piece :: next :: others =>
      obtain ⟨rfl, -⟩ := List.cons.inj hrest
      exact Or.inr ⟨_, rfl⟩
  | plain hroot hdot =>
    by_cases hnil : kept = []
    · subst hnil
      exact .plain (by simp [joinWith]) (by simp [joinWith, splitOn])
    · refine .plain ?_ ?_
      · obtain ⟨rest, hrest⟩ := joinWith_prefix hkept
        intro (hhead : (joinWith '/' kept).head? = some '/')
        rw [← hrest, List.head?_append, hhead] at hroot
        exact hroot rfl
      · have hslash : ∀ piece ∈ kept, '/' ∉ piece := fun piece hpiece =>
          sep_not_mem_of_mem_splitOn (hkept.subset hpiece)
        obtain ⟨piece, others, rfl⟩ := List.exists_cons_of_ne_nil hnil
        obtain ⟨rest, hrest⟩ := hkept
        rw [← hrest] at hdot
        rwa [List.nil_append, splitOn_joinWith hnil hslash]

end Opens

theorem fileName?_eq_some_iff {path : Path} {name : Text} :
    path.fileName? = some name ↔ path.components.getLast? = some (.name name) := by
  unfold fileName?
  cases path.components.getLast? with
  | none => simp
  | some last => cases last <;> simp

structure IsFileName (name : Text) : Prop where
  name_ne : name ≠ [] ∧ name ≠ ['.'] ∧ name ≠ ['.', '.']
  no_slash : '/' ∉ name

variable {path : Path} {name : Text}

theorem isFileName_of_fileName? (h : path.fileName? = some name) : IsFileName name := by
  obtain ⟨mark, front, body, hopens⟩ := path.exists_opens
  have hmem : Component.name name ∈ path.components :=
    List.mem_of_getLast? (fileName?_eq_some_iff.mp h)
  rw [hopens.components_eq] at hmem
  rcases List.mem_append.mp hmem with hfront | hbody
  · cases hopens <;> simp at hfront
  · obtain ⟨piece, hpiece, hcomponent⟩ := List.mem_filterMap.mp hbody
    unfold bodyComponent? at hcomponent
    split at hcomponent
    · cases hcomponent
    · next hidle =>
      split at hcomponent
      · cases hcomponent
      · next hdots =>
        cases hcomponent
        rw [not_or] at hidle
        exact ⟨⟨hidle.1, hidle.2, hdots⟩, sep_not_mem_of_mem_splitOn hpiece⟩

/-- What is before the last component names the others. -/
theorem components_dropLast (h : path.fileName? = some name) :
    path.components = path.dropLast.components ++ [.name name] := by
  obtain ⟨mark, front, body, hopens⟩ := path.exists_opens
  have hlast := fileName?_eq_some_iff.mp h
  rw [hopens.components_eq] at hlast ⊢
  have hbody : ((body.splitOn '/').filterMap bodyComponent?).getLast? = some (.name name) := by
    rw [List.getLast?_append] at hlast
    cases hend : ((body.splitOn '/').filterMap bodyComponent?).getLast? with
    | none =>
      rw [hend] at hlast
      cases hopens <;> simp at hlast
    | some last => rwa [hend] at hlast
  have hcut := cutPieces_prefix (body.splitOn '/')
  have hslash : ∀ piece ∈ cutPieces (body.splitOn '/'), '/' ∉ piece := fun piece hpiece =>
    sep_not_mem_of_mem_splitOn (hcut.subset hpiece)
  have hpieces : (splitOn '/' (joinWith '/' (cutPieces (body.splitOn '/')))).filterMap
      bodyComponent? = (cutPieces (body.splitOn '/')).filterMap bodyComponent? := by
    by_cases hnil : cutPieces (body.splitOn '/') = []
    · rw [hnil]
      rfl
    · rw [splitOn_joinWith hnil hslash]
  rw [hopens.dropLast_eq, (hopens.of_prefix hcut).components_eq, hpieces,
    filterMap_cutPieces hbody, List.append_assoc]

theorem isAbsolute_of_isFileName (h : IsFileName name) : isAbsolute ⟨name⟩ = false := by
  rw [isAbsolute, beq_eq_false_iff_ne]
  intro hhead
  exact h.no_slash (List.mem_of_mem_head? hhead)

theorem components_append_slash (before : Text) {piece : Text} (h : '/' ∉ piece) :
    components ⟨before ++ '/' :: piece⟩ =
      components ⟨before ++ ['/']⟩ ++ (bodyComponent? piece).toList := by
  have hpieces : splitOn '/' (before ++ '/' :: piece) = before.splitOn '/' ++ [piece] := by
    rw [splitOn_append_sep, splitOn_of_not_mem h]
  have hpieces' : splitOn '/' (before ++ ['/']) = before.splitOn '/' ++ [[]] :=
    splitOn_append_sep '/' before []
  have habsolute : isAbsolute ⟨before ++ '/' :: piece⟩ = isAbsolute ⟨before ++ ['/']⟩ := by
    cases before <;> rfl
  have hlast : [piece].filterMap bodyComponent? = (bodyComponent? piece).toList := by
    cases hpiece : bodyComponent? piece <;> simp [hpiece]
  have hidle : [([] : Text)].filterMap bodyComponent? = [] := rfl
  have hhead : ∀ last, (before.splitOn '/' ++ [last]).head? = (before.splitOn '/').head? := by
    intro last
    obtain ⟨first, others, hbefore⟩ := List.exists_cons_of_ne_nil (splitOn_ne_nil '/' before)
    rw [hbefore]
    rfl
  simp only [components, hpieces, hpieces', habsolute, hhead, List.filterMap_append, hlast, hidle,
    List.append_nil, List.append_assoc]

theorem components_append_last_slash {before : Text} (h : before ≠ []) :
    components ⟨before ++ ['/']⟩ = components ⟨before⟩ := by
  have hpieces : splitOn '/' (before ++ ['/']) = before.splitOn '/' ++ [[]] :=
    splitOn_append_sep '/' before []
  have habsolute : isAbsolute ⟨before ++ ['/']⟩ = isAbsolute ⟨before⟩ := by
    obtain ⟨c, cs, rfl⟩ := List.exists_cons_of_ne_nil h
    rfl
  obtain ⟨piece, others, hbefore⟩ := List.exists_cons_of_ne_nil (splitOn_ne_nil '/' before)
  simp only [components, hpieces, habsolute, hbefore, List.cons_append, List.head?_cons,
    List.filterMap_cons, List.filterMap_append, List.filterMap_nil]
  cases bodyComponent? piece <;> simp [bodyComponent?]

/-- Only an empty path has no components. -/
theorem components_eq_nil_iff : path.components = [] ↔ path.text = [] := by
  obtain ⟨mark, front, body, hopens⟩ := path.exists_opens
  rw [hopens.components_eq]
  cases hopens with
  | root htext => simp [htext]
  | current htext _ => simp [htext]
  | plain hroot hdot =>
    constructor
    · intro hnone
      cases htext : path.text with
      | nil => rfl
      | cons c cs =>
        rw [htext] at hroot hdot hnone
        have hc : c ≠ '/' := fun h => hroot (h ▸ rfl)
        obtain ⟨piece, others, hrest⟩ := List.exists_cons_of_ne_nil (splitOn_ne_nil '/' cs)
        have hpieces : splitOn '/' (c :: cs) = (c :: piece) :: others := by
          simp [splitOn, hc, hrest]
        rw [hpieces] at hdot hnone
        have hidle : isIdle (c :: piece) = true := by
          apply bodyComponent?_eq_none_iff.mp
          exact List.filterMap_eq_nil_iff.mp hnone _ List.mem_cons_self
        have hdots : c :: piece = ['.'] := by simpa [isIdle] using hidle
        exact absurd (congrArg some hdots) hdot
    · intro htext
      rw [htext]
      rfl

/-- A piece that is joined to a path gives its component, if it names anything. -/
theorem components_join_piece (folder : Path) {piece : Text} (h : '/' ∉ piece) :
    (folder.join ⟨piece⟩).components =
      if folder.text = [] then components ⟨piece⟩
      else folder.components ++ (bodyComponent? piece).toList := by
  obtain ⟨text⟩ := folder
  have hrelative : isAbsolute ⟨piece⟩ = false := by
    rw [isAbsolute, beq_eq_false_iff_ne]
    exact fun hhead => h (List.mem_of_mem_head? hhead)
  unfold join
  rw [hrelative, if_neg Bool.false_ne_true]
  by_cases hempty : text = []
  · rw [if_pos (Or.inl hempty), if_pos hempty, hempty, List.nil_append]
  · rw [if_neg hempty]
    by_cases hslash : text.getLast? = some '/'
    · obtain ⟨before, rfl⟩ := List.getLast?_eq_some_iff.mp hslash
      rw [if_pos (Or.inr hslash), List.append_assoc]
      exact components_append_slash before h
    · rw [if_neg (not_or.mpr ⟨hempty, hslash⟩), components_append_slash text h,
        components_append_last_slash hempty]

/-- A name that is joined to a path is one component more. -/
theorem components_join (folder : Path) (h : IsFileName name) :
    (folder.join ⟨name⟩).components = folder.components ++ [.name name] := by
  have hname : bodyComponent? name = some (.name name) := by
    simp [bodyComponent?, h.name_ne]
  rw [components_join_piece folder h.no_slash, hname]
  split
  · next hempty =>
    rw [components_eq_nil_iff.mpr hempty, List.nil_append]
    simp [components, isAbsolute_of_isFileName h, splitOn_of_not_mem h.no_slash, hname,
      h.name_ne.2.1]
  · rfl

/-- With another file name a path keeps all components but the last. -/
theorem components_withFileName {other : Text} (h : path.fileName? = some name)
    (hother : IsFileName other) :
    (path.withFileName other).components = path.dropLast.components ++ [.name other] := by
  simp only [withFileName, h, components_join _ hother]

/-- What has a file name is in a directory. -/
theorem parent?_of_fileName? (h : path.fileName? = some name) :
    path.parent? = some path.dropLast := by
  rw [parent?, fileName?_eq_some_iff.mp h]

section Same

variable {a b : Path}

theorem same_iff : a.same b = true ↔ a.components = b.components := beq_iff_eq

/-- A piece joined to equal paths gives equal paths. -/
theorem same_join {piece : Text} (h : a.same b = true) (hslash : '/' ∉ piece) :
    (a.join ⟨piece⟩).same (b.join ⟨piece⟩) = true := by
  rw [same_iff] at h ⊢
  have hempty : a.text = [] ↔ b.text = [] := by
    rw [← components_eq_nil_iff, ← components_eq_nil_iff, h]
  simp only [components_join_piece _ hslash, hempty, h]

end Same

end Retarget.Path
