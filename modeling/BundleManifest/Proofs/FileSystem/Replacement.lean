/-
# BundleManifest.Proofs.FileSystem.Replacement — a link gives way to a file

A file that comes into the place of a link ends every way that has led through this link. Where the
link led to no directory there was no such way: every path that led to a directory still leads there
(`Published.locateFrom_of_ok`), so a path still ends in the same name (`Published.endsAt_of_before`),
and names that were free or in use for a new file are so again. In any case a path ends in the same
name as long as the path above it leads to the same directory (`EndsAt.of_parent`).
-/
import BundleManifest.Proofs.FileSystem.Leads
import BundleManifest.Proofs.FileSystem.Renaming

namespace BundleManifest

/-! ## The path above -/

namespace Route

/-- The route of a single part: that of the slashes before it, and the part. -/
theorem ofText_child_of_nil {anchor : Anchor} {part : Text} (hne : part ≠ [])
    (hslash : CodePoint.ofChar '/' ∉ part) {route : Route}
    (h : ofText (Path.child ⟨anchor, []⟩ part).text = .ok route) :
    ∃ above bytes, ofText (Path.text ⟨anchor, []⟩) = .ok above ∧
      above.absolute = route.absolute ∧ above.steps = [self] ∧ route.segments = [bytes] := by
  rw [Path.text_child_of_nil] at h
  obtain ⟨whole, hwhole, -, -, -, rfl⟩ := ofText_eq_ok_iff.mp h
  obtain ⟨lead, bytes, hlead, hbytes, rfl⟩ := Utf8.encode_append_iff.mp hwhole
  have hslash' : slash ∉ bytes := fun hmem =>
    hslash ((Utf8.mem_encode_iff hbytes (by decide)).mp hmem)
  have hcut : (cut slash bytes).filter (· != []) = [bytes] := by
    rw [cut_of_not_mem hslash', List.filter_cons_of_pos, List.filter_nil]
    simpa using Utf8.ne_nil_of_encode hbytes hne
  cases anchor with
  | here =>
    cases hlead
    have hhead : bytes.head? ≠ some slash := fun hhead => hslash' (List.mem_of_head? hhead)
    exact ⟨⟨false, [self], false⟩, bytes, rfl, (beq_eq_false_iff_ne.mpr hhead).symm, rfl, hcut⟩
  | root =>
    obtain rfl : lead = [slash] := (Except.ok.inj hlead).symm
    exact ⟨⟨true, [], true⟩, bytes, rfl, rfl, rfl, by simpa [ofBytes, cut] using hcut⟩
  | doubleRoot =>
    obtain rfl : lead = [slash, slash] := (Except.ok.inj hlead).symm
    exact ⟨⟨true, [], true⟩, bytes, rfl, rfl, rfl, by simpa [ofBytes, cut] using hcut⟩

/-- The route of a path with parts, made longer by a part: one more segment. -/
theorem ofText_child_of_ne_nil {p : Path} (hplain : p.Plain) (hparts : p.parts ≠ []) {part : Text}
    (hne : part ≠ []) (hslash : CodePoint.ofChar '/' ∉ part) {route : Route}
    (h : ofText (p.child part).text = .ok route) :
    ∃ above bytes, ofText p.text = .ok above ∧ above.absolute = route.absolute ∧
      above.slashed = false ∧ route.segments = above.segments ++ [bytes] := by
  rw [Path.text_child_of_ne_nil hparts part, ← List.singleton_append] at h
  obtain ⟨whole, hwhole, hzero, -, hlength, rfl⟩ := ofText_eq_ok_iff.mp h
  obtain ⟨lead, rest, hlead, hrest, rfl⟩ := Utf8.encode_append_iff.mp hwhole
  obtain ⟨first, bytes, hfirst, hbytes, rfl⟩ := Utf8.encode_append_iff.mp hrest
  obtain rfl : first = [slash] := (Except.ok.inj hfirst).symm
  have hbytesNe := Utf8.ne_nil_of_encode hbytes hne
  have hbytesSlash : slash ∉ bytes := fun hmem =>
    hslash ((Utf8.mem_encode_iff hbytes (by decide)).mp hmem)
  have hname := hplain.name_ne_nil hparts
  have hleadNe : lead ≠ [] := by
    refine Utf8.ne_nil_of_encode hlead fun htext => hname ?_
    obtain ⟨start, -, hchild⟩ := p.parent.exists_start
    have hstart := hchild p.name
    rw [Path.parent_child_name hparts, htext] at hstart
    exact (List.append_eq_nil_iff.mp hstart.symm).2
  have habove : ofText p.text = .ok (ofBytes lead) := by
    refine ofText_eq_ok_iff.mpr ⟨lead, hlead, fun h0 => hzero (by simp [h0]), hleadNe, ?_, rfl⟩
    rw [List.length_append] at hlength
    exact Nat.le_trans (Nat.le_add_right _ _) hlength
  -- the last part of `p` has no slash either
  have hslashed : (ofBytes lead).slashed = false := by
    rw [← Path.parent_child_name hparts] at habove
    obtain ⟨-, -, -, -, hslashed⟩ := ofText_child hname hplain.slash_not_mem_name habove
    exact hslashed
  obtain ⟨habsolute, hsteps⟩ := ofBytes_entry hleadNe (Or.inl rfl) hbytesNe hbytesSlash
  obtain ⟨-, hlast⟩ := ofBytes_last (Or.inr ⟨lead, rfl⟩) hbytesNe hbytesSlash
  rw [List.append_assoc, List.singleton_append] at hlast
  rw [steps, hlast] at hsteps
  exact ⟨ofBytes lead, bytes, habove, habsolute.symm, hslashed, by simpa using hsteps⟩

/-- The path above is taken if the path is, and its segments are those before the last one. -/
theorem ofText_parent {p : Path} (hplain : p.Plain) {route : Route}
    (h : ofText p.text = .ok route) {before : List Bytes} {name : Bytes}
    (hsegments : route.segments = before ++ [name]) (hself : name ≠ self) :
    ∃ above, ofText p.parent.text = .ok above ∧ above.absolute = route.absolute ∧
      (above.steps = before ∨ before = [] ∧ above.steps = [self]) := by
  have hparts := parts_ne_nil h hsegments hself
  have hname := hplain.name_ne_nil hparts
  have hslash := hplain.slash_not_mem_name
  rw [← Path.parent_child_name hparts] at h
  by_cases hupper : p.parent.parts = []
  · have hanchor : p.parent = ⟨p.anchor, []⟩ := congrArg (Path.mk p.anchor) hupper
    rw [hanchor] at h ⊢
    obtain ⟨above, bytes, habove, habsolute, hsteps, hone⟩ := ofText_child_of_nil hname hslash h
    have hlast : before ++ [name] = [] ++ [bytes] := hsegments.symm.trans hone
    obtain ⟨rfl, -⟩ := List.append_inj' hlast rfl
    exact ⟨above, habove, habsolute, Or.inr ⟨rfl, hsteps⟩⟩
  · have hplain' : p.parent.Plain := fun part hpart => hplain part (List.mem_of_mem_dropLast hpart)
    obtain ⟨above, bytes, habove, habsolute, hslashed, hmore⟩ :=
      ofText_child_of_ne_nil hplain' hupper hname hslash h
    obtain ⟨rfl, -⟩ := List.append_inj' (hsegments.symm.trans hmore) rfl
    exact ⟨above, habove, habsolute, Or.inl (by simp [steps, hslashed])⟩

end Route

namespace FileSystem

/-- The path above leads where looking up the last name starts. -/
theorem stat_parent_iff {fs : FileSystem} (hwhole : fs.Whole) {p : Path} (hplain : p.Plain)
    {route : Route} (h : Route.ofText p.text = .ok route) {before : List Bytes} {name : Bytes}
    (hsegments : route.segments = before ++ [name]) (hself : name ≠ Route.self) {d : Inode} :
    fs.stat p.parent.text = .ok d ↔
      fs.locateFrom true linkLimit (fs.start route) before = .ok (.node d) := by
  obtain ⟨above, habove, habsolute, hsteps⟩ := Route.ofText_parent hplain h hsegments hself
  have hstart : fs.start above = fs.start route := by rw [start, habsolute, start]
  have hfollow : fs.follow true above = fs.locateFrom true linkLimit (fs.start route) before := by
    rw [follow_eq, hstart]
    rcases hsteps with hsteps | ⟨rfl, hsteps⟩
    · rw [hsteps]
    · obtain ⟨upper, entries, hnode⟩ := node?_of_kind? (hwhole.start route)
      have hpoint : fs.advance true (fs.start route) [Route.self] = .ok (.node (fs.start route)) := by
        simp [FileSystem.advance, hnode]
      have hhere : fs.advance true (fs.start route) [] = .ok (.node (fs.start route)) := rfl
      rw [hsteps, locateFrom_of_node hpoint, locateFrom_of_node hhere]
  rw [stat_eq_ok_iff, ← hfollow]
  constructor
  · rintro ⟨other, hother, hd⟩
    cases habove.symm.trans hother
    exact hd
  · intro hd
    exact ⟨above, habove, hd⟩

/-- A path that ends in a name of a directory goes through this directory. -/
theorem EndsAt.stat_parent {fs : FileSystem} (hwhole : fs.Whole) {p : Path} (hplain : p.Plain)
    {d : Inode} {name : Bytes} (h : fs.EndsAt p.text d name) : fs.stat p.parent.text = .ok d := by
  obtain ⟨route, before, hroute, hsegments, -, hbefore⟩ := h.route
  exact (stat_parent_iff hwhole hplain hroute hsegments h.ne_self).mpr hbefore

/-- A path ends in the same name where the path above it leads to the same directory. -/
theorem EndsAt.of_parent {fs gs : FileSystem} (hwhole : gs.Whole) {p : Path} (hplain : p.Plain)
    {d : Inode} {name : Bytes} (h : fs.EndsAt p.text d name) (hd : gs.kind? d = some .directory)
    (hstat : gs.stat p.parent.text = .ok d) : gs.EndsAt p.text d name := by
  obtain ⟨route, before, hroute, hsegments, hslashed, -⟩ := h.route
  have hbefore := (stat_parent_iff hwhole hplain hroute hsegments h.ne_self).mp hstat
  exact ⟨⟨route, before, hroute, hsegments, hslashed, hbefore⟩, hd, h.ne_self, h.ne_up⟩

/-! ## A link that leads to no directory -/

/-- A link leads where its target does. -/
theorem leads_of_target {fs : FileSystem} (hfs : fs.Sound) {d j i : Inode} {name target : Bytes}
    (hholds : fs.Holds d name j) (hj : fs.node? j = some (.link target)) {links : Nat}
    (h : fs.locateFrom true links (if (Route.ofBytes target).absolute then rootInode else d)
      (Route.ofBytes target).steps = .ok (.node i)) : fs.Leads d name i := by
  have hadvance := hholds.advance_link hfs hj []
  refine ⟨⟨j, hholds⟩, links + 1, ?_⟩
  rw [locateFrom_of_link hadvance]
  simpa using h

/-- A path without parts leads to the directory in which it starts. -/
theorem kind?_of_stat_of_nil {fs : FileSystem} (hwhole : fs.Whole) {p : Path} (hparts : p.parts = [])
    {i : Inode} (hstat : fs.stat p.text = .ok i) : fs.kind? i = some .directory := by
  obtain ⟨route, hroute, hfollow⟩ := stat_eq_ok_iff.mp hstat
  rw [follow_eq] at hfollow
  have hstart := hwhole.start route
  obtain ⟨anchor, parts⟩ := p
  obtain rfl : parts = [] := hparts
  have hsteps : route.steps = [Route.self] := by
    cases anchor <;> cases hroute <;> rfl
  obtain ⟨above, entries, hnode⟩ := node?_of_kind? hstart
  have hpoint : fs.advance true (fs.start route) [Route.self] = .ok (.node (fs.start route)) := by
    simp [FileSystem.advance, hnode]
  rw [hsteps, locateFrom_of_node hpoint] at hfollow
  cases hfollow
  exact hstart

/-- A single name that leads to something other than a directory is a name that the directory lists. -/
theorem leads_of_locateFrom {fs : FileSystem} (hwhole : fs.Whole) {links : Nat} {d i : Inode}
    {name : Bytes} (hfollow : fs.locateFrom true links d [name] = .ok (.node i))
    (hi : fs.kind? i ≠ some .directory) :
    fs.kind? d = some .directory ∧ name ≠ Route.self ∧ name ≠ Route.up ∧
      name.length ≤ Route.nameLimit ∧ fs.Leads d name i := by
  have hd := kind?_of_locateFrom (List.cons_ne_nil name []) hfollow
  obtain ⟨above, entries, hnode⟩ := node?_of_kind? hd
  have hself : name ≠ Route.self := by
    rintro rfl
    have hpoint : fs.advance true d [Route.self] = .ok (.node d) := by
      simp [FileSystem.advance, hnode]
    rw [locateFrom_of_node hpoint] at hfollow
    cases hfollow
    exact hi hd
  have hup : name ≠ Route.up := by
    rintro rfl
    have habove : fs.advance true d [Route.up] = .ok (.node above) := by
      simp [FileSystem.advance, hnode, Route.up, Route.self]
    rw [locateFrom_of_node habove] at hfollow
    cases hfollow
    exact hi (hwhole.parent hnode)
  have hlength : ¬ Route.nameLimit < name.length := by
    intro hlong
    have hrefused : fs.advance true d [name] = .error .nameTooLong := by
      simp only [FileSystem.advance, hnode, if_neg hself, if_neg hup, if_pos hlong]
    rw [locateFrom_of_error hrefused] at hfollow
    cases hfollow
  refine ⟨hd, hself, hup, Nat.le_of_not_lt hlength, ?_⟩
  cases hlookup : entries.lookup name with
  | none =>
    have hfree := advance_of_free hnode hself hup hlength hlookup true []
    rw [if_pos rfl] at hfree
    rw [locateFrom_of_vacancy hfree] at hfollow
    cases hfollow
  | some j => exact ⟨⟨j, holds_of_lookup hnode hlookup⟩, links, hfollow⟩

/-- A path that leads to something other than a directory ends in a name, and all that this name leads
to is no directory. -/
theorem exists_endsAt_of_stat {fs : FileSystem} (hwhole : fs.Whole) {p : Path} (hplain : p.Plain)
    {i : Inode} (hstat : fs.stat p.text = .ok i) (hi : fs.kind? i ≠ some .directory) :
    ∃ d name, fs.EndsAt p.text d name ∧ fs.Leads d name i ∧ name.length ≤ Route.nameLimit := by
  have hparts : p.parts ≠ [] := fun hnil => hi (kind?_of_stat_of_nil hwhole hnil hstat)
  obtain ⟨route, hroute, hfollow⟩ := stat_eq_ok_iff.mp hstat
  rw [← Path.parent_child_name hparts] at hroute
  obtain ⟨before, name, -, hsegments, hslashed⟩ :=
    Route.ofText_child (hplain.name_ne_nil hparts) hplain.slash_not_mem_name hroute
  rw [Path.parent_child_name hparts] at hroute
  have hsteps : route.steps = before ++ [name] := by simp [Route.steps, hsegments, hslashed]
  rw [follow_eq, hsteps] at hfollow
  rcases locateFrom_append fs true linkLimit (fs.start route) before (List.cons_ne_nil name [])
    with ⟨d, links, hbefore, happend⟩ | ⟨-, fault, hfault⟩
  · rw [happend] at hfollow
    obtain ⟨hd, hself, hup, hlength, hleads⟩ := leads_of_locateFrom hwhole hfollow hi
    exact ⟨d, name, ⟨⟨route, before, hroute, hsegments, hslashed, hbefore⟩, hd, hself, hup⟩,
      hleads, hlength⟩
  · cases hfault.symm.trans hfollow

namespace Published

variable {fs gs : FileSystem} {d k : Inode} {name content : Bytes}

/-- What is no link leads to no directory if it is replaced by a file. -/
theorem leads_no_directory (hfs : fs.Sound) (h : fs.Published gs d name k content)
    (hlink : ∀ j, fs.Holds d name j → fs.kind? j ≠ some .link) (i : Inode)
    (hi : fs.Leads d name i) : fs.kind? i ≠ some .directory := by
  obtain ⟨j, hholds⟩ := hi.1
  obtain rfl := hholds.eq_of_leads hfs (hlink j hholds) hi
  exact (h.replaced i hholds).1

section
variable (hfs : fs.Sound) (hwhole : fs.Whole) (h : fs.Published gs d name k content)
  (hleads : ∀ i, fs.Leads d name i → fs.kind? i ≠ some .directory)
include hfs hwhole h hleads

/-- A path that names something does so afterwards, if what it leads to is a directory or a link at its
end is not followed. -/
theorem locateFrom_of_ok {followLast : Bool} {links : Nat} {current : Inode}
    (hcurrent : fs.kind? current = some .directory) {segments : List Bytes} {place : Place}
    (hplace : fs.locateFrom followLast links current segments = .ok place)
    (hend : followLast = false ∨ ∃ i, place = .node i ∧ fs.kind? i = some .directory) :
    ∃ after, gs.locateFrom followLast links current segments = .ok after ∧
      Moved fs d name k place after := by
  induction links using Nat.strong_induction_on generalizing current segments with
  | _ links ih =>
    rcases h.parallel hwhole followLast hcurrent segments with
      hadvance | ⟨j, target, rest, hholds, hj, hlast, hbefore⟩
    · generalize hbefore : fs.advance followLast current segments = before at hadvance
      generalize hafter : gs.advance followLast current segments = after at hadvance
      cases hadvance with
      | same =>
        rw [locateFrom_of_error hbefore] at hplace
        cases hplace
      | behind =>
        rw [locateFrom_of_error hbefore] at hplace
        cases hplace
      | ok hends =>
        cases hends with
        | @place p q hmoved =>
          have hp : fs.locateFrom followLast links current segments = .ok p := by
            cases p with
            | node i => exact locateFrom_of_node hbefore links
            | vacancy e other => exact locateFrom_of_vacancy hbefore links
          have hq : gs.locateFrom followLast links current segments = .ok q := by
            cases q with
            | node i => exact locateFrom_of_node hafter links
            | vacancy e other => exact locateFrom_of_vacancy hafter links
          cases hp.symm.trans hplace
          exact ⟨q, hq, hmoved⟩
        | link =>
          rw [locateFrom_of_link hbefore] at hplace
          rw [locateFrom_of_link hafter]
          cases links with
          | zero => cases hplace
          | succ links =>
            refine ih links (Nat.lt_succ_self links) ?_ hplace
            split
            · exact hwhole.root
            · exact kind?_of_advance_link hbefore
    · -- the link that is replaced would have to lead to a directory
      rw [locateFrom_of_link hbefore] at hplace
      cases links with
      | zero => cases hplace
      | succ links =>
        by_cases hrest : rest = []
        · subst hrest
          obtain ⟨i, rfl, hi⟩ := hend.resolve_left (by simp [hlast rfl])
          rw [List.append_nil, hlast rfl] at hplace
          exact absurd hi (hleads i (leads_of_target hfs hholds hj hplace))
        · rcases locateFrom_append fs followLast links
            (if (Route.ofBytes target).absolute then rootInode else d) (Route.ofBytes target).steps
            hrest with ⟨i, left, htarget, happend⟩ | ⟨-, fault, hfault⟩
          · have hi := kind?_of_locateFrom hrest (happend.symm.trans hplace)
            exact absurd hi (hleads i (leads_of_target hfs hholds hj htarget))
          · cases hfault.symm.trans hplace

/-- A path ends where it has ended before. -/
theorem endsAt_of_before {path : Text} {e : Inode} {other : Bytes}
    (hends : fs.EndsAt path e other) : gs.EndsAt path e other := by
  obtain ⟨route, before, hroute, hsegments, hslashed, hbefore⟩ := hends.route
  have hstart : gs.start route = fs.start route := by rw [start, h.here, start]
  have hkept : ¬ fs.Holds d name e := fun hholds => (h.replaced e hholds).1 hends.kind
  obtain ⟨after, hafter, hmoved⟩ := h.locateFrom_of_ok hfs hwhole hleads (hwhole.start route)
    hbefore (Or.inr ⟨e, rfl, hends.kind⟩)
  cases hmoved with
  | kept _ =>
    rw [← hstart] at hafter
    exact ⟨⟨route, before, hroute, hsegments, hslashed, hafter⟩, h.kind?_kept hends.kind hkept,
      hends.ne_self, hends.ne_up⟩
  | replaced hholds => exact absurd hholds hkept

/-- What a path names, its last link not followed, it names afterwards. -/
theorem locate_of_ok {path : Text} {place : Place} (hplace : fs.locate false path = .ok place) :
    ∃ after, gs.locate false path = .ok after ∧ Moved fs d name k place after := by
  unfold FileSystem.locate at hplace ⊢
  cases hroute : Route.ofText path with
  | error e =>
    rw [hroute] at hplace
    cases hplace
  | ok route =>
    have hstart : gs.start route = fs.start route := by rw [start, h.here, start]
    simp only [hroute, bind, Except.bind, follow_eq, hstart] at hplace ⊢
    cases hbefore : fs.locateFrom false linkLimit (fs.start route) route.steps with
    | error fault =>
      rw [hbefore] at hplace
      cases hplace
    | ok found =>
      rw [hbefore] at hplace
      cases hplace
      obtain ⟨after, hafter, hmoved⟩ := h.locateFrom_of_ok hfs hwhole hleads (hwhole.start route)
        hbefore (Or.inl rfl)
      exact ⟨after, by rw [hafter]; rfl, hmoved⟩

/-- A name that is still free stays free for other paths. -/
theorem locate_vacancy {path : Text} {e : Inode} {other : Bytes}
    (hfree : fs.locate false path = .ok (.vacancy e other)) (hother : other ≠ name) :
    gs.locate false path = .ok (.vacancy e other) := by
  obtain ⟨after, hafter, hmoved⟩ := h.locate_of_ok hfs hwhole hleads hfree
  cases hmoved with
  | free _ => exact hafter
  | taken _ => exact absurd rfl hother

/-- A path whose name is in use is refused as before. -/
theorem make_taken {path : Text} {node : Inode → Node}
    (hmake : fs.make path node = .error (.fault .taken)) :
    gs.make path node = .error (.fault .taken) := by
  obtain ⟨i, hi⟩ := make_eq_taken_iff.mp hmake
  obtain ⟨after, hafter, hmoved⟩ := h.locate_of_ok hfs hwhole hleads hi
  cases hmoved with
  | kept _ => exact make_eq_taken_iff.mpr ⟨_, hafter⟩
  | replaced _ => exact make_eq_taken_iff.mpr ⟨_, hafter⟩

end

end Published

end FileSystem

end BundleManifest
