/-
# BundleManifest.Proofs.FileSystem.Absolute — paths beside a path

What a directory is called does not matter for the names in it: a path that leads to a directory can be made
longer by any name that a directory may list, as long as it fits (`endsAt_child`), and then by every other
such name as well (`EndsAt.beside`). The absolute path of a directory leads where the path does if it has
no `..` (`stat_absolute`); with `..` it need not, since `..` is taken out without looking at links.
-/
import BundleManifest.Proofs.FileSystem.Asking
import BundleManifest.Proofs.FileSystem.Descent
import BundleManifest.Proofs.FileSystem.Replacement

namespace BundleManifest

/-! ## Longer paths -/

namespace Path

theorem parent_child (p : Path) (part : Text) : (p.child part).parent = p := by
  obtain ⟨anchor, parts⟩ := p
  unfold parent child
  rw [List.dropLast_concat]

theorem Plain.child {p : Path} (h : p.Plain) {part : Text} (hne : part ≠ [])
    (hslash : CodePoint.ofChar '/' ∉ part) : (p.child part).Plain := by
  intro other hother
  rcases List.mem_append.mp hother with hother | hother
  · exact h other hother
  · rw [List.mem_singleton.mp hother]
    exact ⟨hne, hslash⟩

theorem Plain.parent {p : Path} (h : p.Plain) : p.parent.Plain :=
  fun part hpart => h part (List.mem_of_mem_dropLast hpart)

/-- A path with a shorter part in the place of its last one fits. -/
theorem fits_child_of_le {p : Path} {part other : Text} {bytes others : Bytes}
    (hbytes : Utf8.encode part = .ok bytes) (hothers : Utf8.encode other = .ok others)
    (hle : others.length ≤ bytes.length) (h : (p.child part).text.Fits) :
    (p.child other).text.Fits := by
  obtain ⟨start, -, hstart⟩ := p.exists_start
  obtain ⟨whole, hwhole, hlength⟩ := h
  rw [hstart] at hwhole
  obtain ⟨lead, last, hlead, hlast, rfl⟩ := Utf8.encode_append_iff.mp hwhole
  cases hbytes.symm.trans hlast
  refine ⟨lead ++ others, ?_, ?_⟩
  · rw [hstart]
    exact Utf8.encode_append_iff.mpr ⟨lead, others, hlead, hothers, rfl⟩
  · rw [List.length_append] at hlength ⊢
    omega

/-- A path fits if it does with one more part. -/
theorem fits_of_fits_child {p : Path} {part : Text} (h : (p.child part).text.Fits) : p.text.Fits := by
  by_cases hparts : p.parts = []
  · obtain ⟨anchor, parts⟩ := p
    obtain rfl : parts = [] := hparts
    cases anchor with
    | here => exact ⟨[0x2E], rfl, by decide⟩
    | root => exact ⟨[Route.slash], rfl, by decide⟩
    | doubleRoot => exact ⟨[Route.slash, Route.slash], rfl, by decide⟩
  · rw [text_child_of_ne_nil hparts] at h
    exact h.of_prefix (List.prefix_append _ _)

/-- Without `..` there is nothing to take out. -/
theorem collapse_of_not_mem {p : Path} (h : Text.dotdot ∉ p.parts) : p.collapse = p := by
  obtain ⟨anchor, parts⟩ := p
  have hfold (front : List Text) :
      parts.foldl (collapseStep (isAbsolute ⟨anchor, parts⟩)) front = front ++ parts := by
    generalize isAbsolute ⟨anchor, parts⟩ = absolute
    induction parts generalizing front with
    | nil => simp
    | cons part parts ih =>
      obtain ⟨hpart, hparts⟩ : part ≠ Text.dotdot ∧ Text.dotdot ∉ parts := by
        simpa [eq_comm] using h
      rw [List.foldl_cons, FileSystem.collapseStep_of_ne hpart, ih hparts, List.append_assoc]
      rfl
  exact congrArg (Path.mk anchor) (hfold [])

end Path

/-- A text that fits is taken as a path, if it is not empty and holds no zero. -/
theorem Route.exists_ofText {t : Text} (hne : t ≠ []) (hzero : (0 : CodePoint) ∉ t) (hfits : t.Fits) :
    ∃ route, ofText t = .ok route := by
  obtain ⟨bytes, hbytes, hlength⟩ := hfits
  exact ⟨_, ofText_eq_ok_iff.mpr ⟨bytes, hbytes, fun hmem => hzero ((Utf8.zero_mem_encode_iff hbytes).mp hmem),
    Utf8.ne_nil_of_encode hbytes hne, hlength, rfl⟩⟩

/-- The segments of a route are the encoded parts of its path. -/
theorem Route.ofText_parts {p : Path} (hplain : p.Plain) (hparts : p.parts ≠ []) {route : Route}
    (h : ofText p.text = .ok route) :
    route.absolute = p.isAbsolute ∧ route.slashed = false ∧
      List.Forall₂ (fun part segment => Utf8.encode part = .ok segment) p.parts route.segments := by
  obtain ⟨anchor, parts⟩ := p
  induction parts using List.reverseRecOn generalizing route with
  | nil => exact absurd rfl hparts
  | append_singleton front part ih =>
    obtain ⟨hne, hslash⟩ := hplain part (by simp)
    have hchild : Path.mk anchor (front ++ [part]) = Path.child ⟨anchor, front⟩ part := rfl
    rw [hchild] at h
    obtain ⟨before, bytes, hbytes, hsegments, hslashed⟩ := ofText_child hne hslash h
    have hfrontPlain : Path.Plain ⟨anchor, front⟩ :=
      fun other hother => hplain other (List.mem_append_left _ hother)
    have hlast : List.Forall₂ (fun part segment => Utf8.encode part = .ok segment) [part] [bytes] :=
      .cons hbytes .nil
    by_cases hfront : front = []
    · subst hfront
      obtain ⟨above, last, habove, habsolute, -, hone⟩ := ofText_child_of_nil hne hslash h
      obtain ⟨rfl, -⟩ := List.append_inj' (hsegments.symm.trans hone : _ = [] ++ [last]) rfl
      refine ⟨?_, hslashed, by rwa [hsegments]⟩
      rw [← habsolute]
      cases anchor <;> cases habove <;> rfl
    · obtain ⟨above, last, habove, habsolute, -, hmore⟩ :=
        ofText_child_of_ne_nil hfrontPlain hfront hne hslash h
      obtain ⟨rfl, -⟩ := List.append_inj' (hsegments.symm.trans hmore) rfl
      obtain ⟨hanchor, -, hencoded⟩ := ih hfrontPlain hfront habove
      refine ⟨habsolute.symm.trans hanchor, hslashed, ?_⟩
      rw [hsegments]
      exact List.rel_append hencoded hlast

namespace FileSystem

/-! ## Names in a directory -/

/-- The path of a directory, made longer by a name, ends in this name. -/
theorem endsAt_child {fs : FileSystem} (hwhole : fs.Whole) {p : Path} (hplain : p.Plain) {d : Inode}
    (hstat : fs.stat p.text = .ok d) (hd : fs.kind? d = some .directory) {part : Text}
    {name : Bytes} (hname : Utf8.encode part = .ok name) (hpiece : Route.IsPiece name)
    (hself : name ≠ Route.self) (hup : name ≠ Route.up) (hfits : (p.child part).text.Fits) :
    fs.EndsAt (p.child part).text d name := by
  have hne : part ≠ [] := by
    rintro rfl
    cases hname
    exact hpiece.ne_nil rfl
  have hslash : CodePoint.ofChar '/' ∉ part := fun hmem =>
    hpiece.slash_not_mem ((Utf8.mem_encode_iff hname (by decide)).mpr hmem)
  have haskable := Path.askable_child (askable_of_stat hstat) ⟨name, hname, hpiece.zero_not_mem⟩
  have htext : (p.child part).text ≠ [] := by
    obtain ⟨start, -, hstart⟩ := p.exists_start
    rw [hstart]
    exact List.append_ne_nil_of_right_ne_nil _ hne
  obtain ⟨route, hroute⟩ := Route.exists_ofText htext haskable.zero_not_mem hfits
  obtain ⟨before, name', hname', hsegments, hslashed⟩ := Route.ofText_child hne hslash hroute
  cases hname.symm.trans hname'
  have hparent : fs.stat (p.child part).parent.text = .ok d := by rwa [Path.parent_child]
  have hbefore := (stat_parent_iff hwhole (hplain.child hne hslash) hroute hsegments hself).mp hparent
  exact ⟨⟨_, before, hroute, hsegments, hslashed, hbefore⟩, hd, hself, hup⟩

/-- Where a path ends in a name of a directory, it ends in every other name with this name as its last
part. -/
theorem EndsAt.beside {fs : FileSystem} (hwhole : fs.Whole) {p : Path} (hplain : p.Plain) {d : Inode}
    {part other : Text} {name bytes : Bytes} (hpart : (p.child part).Plain)
    (h : fs.EndsAt (p.child part).text d name) (hother : Utf8.encode other = .ok bytes)
    (hpiece : Route.IsPiece bytes) (hself : bytes ≠ Route.self) (hup : bytes ≠ Route.up)
    (hfits : (p.child other).text.Fits) : fs.EndsAt (p.child other).text d bytes := by
  have hstat := h.stat_parent hwhole hpart
  rw [Path.parent_child] at hstat
  exact endsAt_child hwhole hplain hstat h.kind hother hpiece hself hup hfits

/-! ## Absolute paths -/

/-- The node where a path starts. -/
def startOf (fs : FileSystem) (p : Path) : Inode := if p.isAbsolute then rootInode else fs.here

/-- A path that the operating system takes leads where its encoded parts do. -/
theorem stat_iff_parts {fs : FileSystem} (hwhole : fs.Whole) {p : Path} (hplain : p.Plain)
    {route : Route} (h : Route.ofText p.text = .ok route) {d : Inode} :
    fs.stat p.text = .ok d ↔
      ∃ segments, List.Forall₂ (fun part segment => Utf8.encode part = .ok segment) p.parts segments ∧
        fs.locateFrom true linkLimit (fs.startOf p) segments = .ok (.node d) := by
  have hfollow : fs.stat p.text = .ok d ↔ fs.follow true route = .ok (.node d) := by
    rw [stat_eq_ok_iff, h]
    simp
  rw [hfollow, follow_eq]
  by_cases hparts : p.parts = []
  · obtain ⟨anchor, parts⟩ := p
    obtain rfl : parts = [] := hparts
    have hroute : fs.start route = fs.startOf ⟨anchor, []⟩ ∧ route.steps = [Route.self] := by
      cases anchor <;> cases h <;> exact ⟨rfl, rfl⟩
    obtain ⟨above, entries, hnode⟩ := node?_of_kind? (hwhole.start route)
    have hpoint : fs.advance true (fs.start route) [Route.self] = .ok (.node (fs.start route)) := by
      simp [advance, hnode]
    have hnone : fs.advance true (fs.start route) [] = .ok (.node (fs.start route)) := rfl
    rw [hroute.2, ← hroute.1]
    simp only [List.forall₂_nil_left_iff, exists_eq_left]
    rw [locateFrom_of_node hpoint, locateFrom_of_node hnone]
  · obtain ⟨habsolute, hslashed, hencoded⟩ := Route.ofText_parts hplain hparts h
    have hstart : fs.start route = fs.startOf p := by rw [start, startOf, habsolute]
    have hsteps : route.steps = route.segments := by simp [Route.steps, hslashed]
    rw [hstart, hsteps]
    refine ⟨fun hd => ⟨_, hencoded, hd⟩, ?_⟩
    rintro ⟨segments, hsegments, hd⟩
    have hunique : Relator.RightUnique fun (part : Text) segment => Utf8.encode part = .ok segment :=
      fun part a b ha hb => Except.ok.inj (ha.symm.trans hb)
    rwa [← List.right_unique_forall₂' hunique hencoded hsegments] at hd

section
variable {fs : FileSystem} (hfs : fs.Sound) (hplaced : fs.Placed) {p : Path}
include hfs hplaced

/-- A part that comes into a path when it is made absolute is the name of a directory. -/
theorem legal_of_mem_absolute {part : Text} (h : part ∈ (fs.absolute p).parts) :
    part ∈ p.parts ∨ ∃ name, LegalName name ∧ part = Utf8.decode name := by
  obtain ⟨names, hpath, hnames⟩ := hplaced.here
  rcases mem_parts_absolute h with hpart | hpart
  · rw [hpath] at hpart
    obtain ⟨name, hname, rfl⟩ := List.mem_map.mp hpart
    exact Or.inr ⟨name, hnames.legal hfs name hname, rfl⟩
  · exact Or.inl hpart

/-- The absolute path of a path with proper parts has proper parts. -/
theorem plain_absolute (hplain : p.Plain) : (fs.absolute p).Plain := by
  intro part hpart
  rcases legal_of_mem_absolute hfs hplaced hpart with hpart | ⟨name, hlegal, rfl⟩
  · exact hplain part hpart
  · exact ⟨by simpa using hlegal.ne_nil, hlegal.slash_not_mem_decode⟩

/-- No zero comes into a path when it is made absolute. -/
theorem zero_not_mem_absolute (h : p.text.Askable) : (0 : CodePoint) ∉ (fs.absolute p).text := by
  rw [Path.mem_text_iff (by decide) (by decide)]
  rintro ⟨part, hpart, hzero⟩
  rcases legal_of_mem_absolute hfs hplaced hpart with hpart | ⟨name, hlegal, rfl⟩
  · exact h.zero_not_mem ((Path.mem_text_iff (by decide) (by decide)).mpr ⟨part, hpart, hzero⟩)
  · exact hlegal.zero_not_mem ((Utf8.mem_decode_iff (by decide)).mp hzero)

end

/-- Without `..` nothing is taken out of a path; a relative one goes on behind the working directory. -/
theorem exists_absolute_of_not_up {fs : FileSystem} (hplaced : fs.Placed) {p : Path}
    (hup : Text.dotdot ∉ p.parts) :
    ∃ names, fs.Descends rootInode names fs.here ∧
      fs.absolute p = if p.isAbsolute then p else ⟨.root, names.map Utf8.decode ++ p.parts⟩ := by
  obtain ⟨names, hpath, hnames⟩ := hplaced.here
  refine ⟨names, hnames, ?_⟩
  unfold absolute Path.join
  rw [hpath]
  split
  · exact Path.collapse_of_not_mem hup
  · refine Path.collapse_of_not_mem fun hmem => ?_
    rcases List.mem_append.mp hmem with hmem | hmem
    · obtain ⟨name, hname, heq⟩ := List.mem_map.mp hmem
      exact (hnames.1 name hname).2 (Utf8.decode_eq_dotdot_iff.mp heq)
    · exact hup hmem

/-- The absolute path of a path without `..` leads where the path does, as long as it fits. -/
theorem stat_absolute {fs : FileSystem} (hfs : fs.Sound) (hwhole : fs.Whole) (hplaced : fs.Placed)
    {p : Path} (hup : Text.dotdot ∉ p.parts) (hplain : p.Plain) {d : Inode}
    (h : fs.stat p.text = .ok d) (hfits : (fs.absolute p).text.Fits) :
    fs.stat (fs.absolute p).text = .ok d := by
  have habove := plain_absolute hfs hplaced hplain
  have hzero := zero_not_mem_absolute hfs hplaced (askable_of_stat h)
  obtain ⟨names, hnames, habsolute⟩ := exists_absolute_of_not_up hplaced hup
  by_cases hroot : p.isAbsolute = true
  · rwa [habsolute, if_pos hroot]
  rw [habsolute, if_neg hroot] at hfits habove hzero ⊢
  obtain ⟨route, hroute, -⟩ := stat_eq_ok_iff.mp h
  obtain ⟨segments, hsegments, hd⟩ := (stat_iff_parts hwhole hplain hroute).mp h
  obtain ⟨route', hroute'⟩ := Route.exists_ofText (List.cons_ne_nil _ _) hzero hfits
  have hencoded : List.Forall₂ (fun part segment => Utf8.encode part = .ok segment)
      (names.map Utf8.decode) names := by
    rw [List.forall₂_map_left_iff, List.forall₂_same]
    exact fun name _ => Utf8.encode_decode name
  refine (stat_iff_parts hwhole habove hroute').mpr ⟨_, List.rel_append hencoded hsegments, ?_⟩
  have hhere : fs.locateFrom true linkLimit fs.here segments = .ok (.node d) := by
    rwa [startOf, if_neg hroot] at hd
  rw [← hhere]
  exact locateFrom_of_advance (advance_append_of_node hnames.2 segments) linkLimit

end FileSystem

end BundleManifest
