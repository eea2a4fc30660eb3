/-
# BundleManifest.Proofs.FileSystem.Places — the last name of a path

A path that ends in a name is looked up in two steps: what stands before the name leads to a
directory, and the name is looked up there. `EndsAt` says which directory and which name these are.
What is found there, whether the name is free, and where a file is made or renamed to all follow from
it (`EndsAt.locate_of_holds`, `endsAt_of_vacancy`), and a file that is published somewhere leaves it
as it is (`Published.endsAt_iff`).
-/
import BundleManifest.Proofs.FileSystem.Publication

namespace BundleManifest

/-- The first part of a path stands behind the slashes of its start. -/
theorem Path.text_child_of_nil (anchor : Anchor) (name : Text) :
    (Path.child ⟨anchor, []⟩ name).text = anchor.text ++ name := by
  cases anchor <;> rfl

/-- Every other part of a path stands behind a slash. -/
theorem Path.text_child_of_ne_nil {p : Path} (h : p.parts ≠ []) (name : Text) :
    (p.child name).text = p.text ++ CodePoint.ofChar '/' :: name := by
  obtain ⟨anchor, parts⟩ := p
  have htext {parts : List Text} (h : parts ≠ []) :
      Path.text ⟨anchor, parts⟩ = anchor.text ++ Text.join '/' parts := by
    cases parts with
    | nil => exact absurd rfl h
    | cons first others => cases anchor <;> rfl
  show Path.text ⟨anchor, parts ++ [name]⟩ = Path.text ⟨anchor, parts⟩ ++ _
  rw [htext h, htext (by simp), Text.join, glue_append_singleton _ h, List.append_assoc]

/-- The last part of a path stands alone or behind a slash, whatever it is. -/
theorem Path.exists_start (p : Path) :
    ∃ start, (start = [] ∨ ∃ front, start = front ++ ("/" : Text)) ∧
      ∀ name, (p.child name).text = start ++ name := by
  by_cases hparts : p.parts = []
  · obtain ⟨anchor, parts⟩ := p
    obtain rfl : parts = [] := hparts
    refine ⟨anchor.text, ?_, Path.text_child_of_nil anchor⟩
    cases anchor with
    | here => exact Or.inl rfl
    | root => exact Or.inr ⟨[], rfl⟩
    | doubleRoot => exact Or.inr ⟨"/", rfl⟩
  · refine ⟨p.text ++ "/", Or.inr ⟨p.text, rfl⟩, fun name => ?_⟩
    rw [Path.text_child_of_ne_nil hparts, List.append_assoc]
    rfl

/-- A path with parts is the path above with the last part. -/
theorem Path.parent_child_name {p : Path} (h : p.parts ≠ []) : p.parent.child p.name = p := by
  obtain ⟨anchor, parts⟩ := p
  unfold Path.child Path.parent Path.name
  simp only [Path.mk.injEq, true_and]
  rw [List.getLastD_eq_getLast?, List.getLast?_eq_some_getLast h]
  exact List.dropLast_concat_getLast h

/-- Every part of a path is one, as in every path that is read from a text. -/
def Path.Plain (p : Path) : Prop := ∀ part ∈ p.parts, part ≠ [] ∧ CodePoint.ofChar '/' ∉ part

theorem Path.plain_ofText (t : Text) : (Path.ofText t).Plain := by
  intro part hpart
  obtain ⟨hcut, hkept⟩ := List.mem_filter.mp hpart
  have hne : part ≠ [] ∧ part ≠ Text.dot := by simpa using hkept
  exact ⟨hne.1, not_mem_of_mem_cut hcut⟩

theorem Path.Plain.slash_not_mem_name {p : Path} (h : p.Plain) : CodePoint.ofChar '/' ∉ p.name := by
  unfold Path.name
  rw [List.getLastD_eq_getLast?]
  cases hlast : p.parts.getLast? with
  | none => simp
  | some part => exact (h part (List.mem_of_getLast? hlast)).2

theorem Path.Plain.name_ne_nil {p : Path} (h : p.Plain) (hparts : p.parts ≠ []) : p.name ≠ [] := by
  unfold Path.name
  rw [List.getLastD_eq_getLast?, List.getLast?_eq_some_getLast hparts]
  exact (h _ (List.getLast_mem hparts)).1

namespace Route

/-- A path that ends in a name has parts. -/
theorem parts_ne_nil {p : Path} {route : Route} (h : ofText p.text = .ok route)
    {before : List Bytes} {name : Bytes} (hsegments : route.segments = before ++ [name])
    (hself : name ≠ self) : p.parts ≠ [] := by
  obtain ⟨anchor, parts⟩ := p
  rintro (rfl : parts = [])
  cases anchor with
  | here =>
    have hhere : ofText (Path.text ⟨.here, []⟩) = .ok ⟨false, [self], false⟩ := rfl
    cases hhere.symm.trans h
    have hlast : [self].getLast? = some name :=
      (congrArg List.getLast? hsegments).trans List.getLast?_concat
    exact hself (Option.some.inj hlast).symm
  | root =>
    have hroot : ofText (Path.text ⟨.root, []⟩) = .ok ⟨true, [], true⟩ := rfl
    cases hroot.symm.trans h
    exact absurd hsegments.symm (by simp)
  | doubleRoot =>
    have hroot : ofText (Path.text ⟨.doubleRoot, []⟩) = .ok ⟨true, [], true⟩ := rfl
    cases hroot.symm.trans h
    exact absurd hsegments.symm (by simp)

/-- What stands alone or behind the last slash is the last segment. -/
theorem ofBytes_last {start name : Bytes} (hstart : start = [] ∨ ∃ front, start = front ++ [slash])
    (hne : name ≠ []) (hslash : slash ∉ name) :
    (∃ before, (ofBytes (start ++ name)).segments = before ++ [name]) ∧
      (ofBytes (start ++ name)).slashed = false := by
  have hname : (cut slash name).filter (· != []) = [name] := by
    rw [cut_of_not_mem hslash, List.filter_cons_of_pos (by simpa using hne), List.filter_nil]
  constructor
  · rcases hstart with rfl | ⟨front, rfl⟩
    · exact ⟨[], hname⟩
    · refine ⟨(cut slash front).filter (· != []), ?_⟩
      show (cut slash (front ++ [slash] ++ name)).filter (· != []) = _
      rw [List.append_assoc, List.singleton_append, cut_append, List.filter_append, hname]
  · show ((start ++ name).getLast? == some slash) = false
    rw [List.getLast?_append, beq_eq_false_iff_ne]
    cases hlast : name.getLast? with
    | none => exact absurd (List.getLast?_eq_none_iff.mp hlast) hne
    | some b =>
      intro heq
      have hb : b = slash := Option.some.inj heq
      exact hslash (hb ▸ List.mem_of_getLast? hlast)

/-- The route of a path ends in the bytes of its last part. -/
theorem ofText_child {p : Path} {name : Text} {route : Route} (hne : name ≠ [])
    (hslash : CodePoint.ofChar '/' ∉ name) (h : ofText (p.child name).text = .ok route) :
    ∃ before bytes, Utf8.encode name = .ok bytes ∧ route.segments = before ++ [bytes] ∧
      route.slashed = false := by
  obtain ⟨whole, hwhole, -, -, -, rfl⟩ := ofText_eq_ok_iff.mp h
  obtain ⟨start, hstart, htext⟩ := p.exists_start
  rw [htext] at hwhole
  obtain ⟨lead, bytes, hlead, hbytes, rfl⟩ := Utf8.encode_append_iff.mp hwhole
  have hleads : lead = [] ∨ ∃ front, lead = front ++ [slash] := by
    rcases hstart with rfl | ⟨front, rfl⟩
    · exact Or.inl (Except.ok.inj hlead).symm
    · obtain ⟨first, second, -, hsecond, rfl⟩ := Utf8.encode_append_iff.mp hlead
      exact Or.inr ⟨first, congrArg (first ++ ·) (Except.ok.inj hsecond).symm⟩
  have hbytesNe : bytes ≠ [] := Utf8.ne_nil_of_encode hbytes hne
  have hbytesSlash : slash ∉ bytes := fun hmem =>
    hslash ((Utf8.mem_encode_iff hbytes (by decide)).mp hmem)
  obtain ⟨⟨before, hsegments⟩, hslashed⟩ := ofBytes_last hleads hbytesNe hbytesSlash
  exact ⟨before, bytes, hbytes, hsegments, hslashed⟩

end Route

namespace FileSystem

/-! ## The end of a path -/

/-- Where a route starts. -/
def start (fs : FileSystem) (route : Route) : Inode :=
  if route.absolute then rootInode else fs.here

theorem follow_eq (fs : FileSystem) (followLast : Bool) (route : Route) :
    fs.follow followLast route
      = fs.locateFrom followLast linkLimit (fs.start route) route.steps := rfl

theorem Whole.start {fs : FileSystem} (h : fs.Whole) (route : Route) :
    fs.kind? (fs.start route) = some .directory := by
  unfold FileSystem.start
  split
  · exact h.root
  · exact h.here

/-- A path ends in a name, and what stands before the name leads to a directory. -/
structure EndsAt (fs : FileSystem) (path : Text) (d : Inode) (name : Bytes) : Prop where
  route : ∃ route before, Route.ofText path = .ok route ∧ route.segments = before ++ [name] ∧
    route.slashed = false ∧
    fs.locateFrom true linkLimit (fs.start route) before = .ok (.node d)
  kind : fs.kind? d = some .directory
  ne_self : name ≠ Route.self
  ne_up : name ≠ Route.up

namespace EndsAt

variable {fs : FileSystem} {path : Text} {d : Inode} {name : Bytes}

/-- The name is looked up in the directory. -/
theorem locate (h : fs.EndsAt path d name) (followLast : Bool) :
    ∃ links, fs.locate followLast path
      = (fs.locateFrom followLast links d [name]).mapError .fault := by
  obtain ⟨route, before, hroute, hsegments, hslashed, hbefore⟩ := h.route
  have hsteps : route.steps = before ++ [name] := by
    rw [Route.steps, hsegments, hslashed]
    simp
  have hlocate : fs.locate followLast path
      = (fs.locateFrom followLast linkLimit (fs.start route) (before ++ [name])).mapError .fault := by
    unfold FileSystem.locate
    rw [hroute, ← hsteps]
    rfl
  rcases locateFrom_append fs followLast linkLimit (fs.start route) before
    (List.cons_ne_nil name []) with ⟨e, links, he, happend⟩ | ⟨hnone, -⟩
  · cases hbefore.symm.trans he
    exact ⟨links, by rw [hlocate, happend]⟩
  · exact absurd hbefore (hnone d)

/-- The path names what the directory holds under the name; a link is followed only when asked for. -/
theorem locate_of_holds (hfs : fs.Sound) (h : fs.EndsAt path d name) {i : Inode} {node : Node}
    (hholds : fs.Holds d name i) (hi : fs.node? i = some node) {followLast : Bool}
    (hlink : followLast = false ∨ node.kind ≠ .link) :
    fs.locate followLast path = .ok (.node i) := by
  obtain ⟨above, entries, hd, hlookup⟩ := hholds.lookup hfs
  have hlength : ¬ Route.nameLimit < name.length := Nat.not_lt.mpr (hholds.legal hfs).length_le
  have hadvance : fs.advance followLast d [name] = .ok (.node i) := by
    by_cases hkind : node.kind = .link
    · obtain ⟨target, rfl⟩ := exists_target hkind
      have hfollow : followLast = false := hlink.resolve_right fun hne => hne hkind
      rw [advance_of_link hd h.ne_self h.ne_up hlength hlookup hi, hfollow]
      rfl
    · rw [advance_of_entry hd h.ne_self h.ne_up hlength hlookup hi hkind]
      rfl
  obtain ⟨links, hlocate⟩ := h.locate followLast
  rw [hlocate, locateFrom_of_node hadvance]
  rfl

theorem find_of_holds (hfs : fs.Sound) (h : fs.EndsAt path d name) {i : Inode} {node : Node}
    (hholds : fs.Holds d name i) (hi : fs.node? i = some node) {followLast : Bool}
    (hlink : followLast = false ∨ node.kind ≠ .link) : fs.find followLast path = .ok i := by
  unfold find
  rw [h.locate_of_holds hfs hholds hi hlink]
  rfl

/-- Whether the path names a link is decided where it ends. -/
theorem kind?_ne_link (hfs : fs.Sound) (hwhole : fs.Whole) (h : fs.EndsAt path d name)
    (hlink : ∀ i, fs.lstat path = .ok i → fs.kind? i ≠ some .link) (j : Inode)
    (hholds : fs.Holds d name j) : fs.kind? j ≠ some .link := by
  obtain ⟨node, hnode⟩ := Option.ne_none_iff_exists'.mp (hwhole.entry hholds)
  exact hlink j (h.find_of_holds hfs hholds hnode (Or.inl rfl))

/-- A name that the directory does not hold is free. -/
theorem locate_of_lacks (h : fs.EndsAt path d name) (hlacks : fs.Lacks d name)
    (hlength : name.length ≤ Route.nameLimit) (followLast : Bool) :
    fs.locate followLast path = .ok (.vacancy d name) := by
  obtain ⟨above, entries, hd⟩ := node?_of_kind? h.kind
  have hlookup : entries.lookup name = none := lookup_eq_none_iff.mpr (hlacks above entries hd)
  have hadvance : fs.advance followLast d [name] = .ok (.vacancy d name) := by
    rw [advance_of_free hd h.ne_self h.ne_up (Nat.not_lt.mpr hlength) hlookup]
    rfl
  obtain ⟨links, hlocate⟩ := h.locate followLast
  rw [hlocate, locateFrom_of_vacancy hadvance]
  rfl

/-- What the path leads to is what the directory holds, if that is no link. -/
theorem holds_of_stat (hfs : fs.Sound) (hwhole : fs.Whole) (h : fs.EndsAt path d name)
    (hlength : name.length ≤ Route.nameLimit)
    (hlink : ∀ j, fs.Holds d name j → fs.kind? j ≠ some .link) {i : Inode}
    (hi : fs.stat path = .ok i) : fs.Holds d name i := by
  unfold stat at hi
  by_cases hexists : ∃ j, fs.Holds d name j
  · obtain ⟨j, hholds⟩ := hexists
    obtain ⟨node, hnode⟩ := Option.ne_none_iff_exists'.mp (hwhole.entry hholds)
    have hkind : node.kind ≠ .link := by simpa [kind?, hnode] using hlink j hholds
    rw [h.find_of_holds hfs hholds hnode (Or.inr hkind)] at hi
    cases hi
    exact hholds
  · have hlacks : fs.Lacks d name := lacks_of_not_holds (not_exists.mp hexists)
    unfold find at hi
    rw [h.locate_of_lacks hlacks hlength true] at hi
    cases hi

/-- The directory and the name are the site of the path. -/
theorem site (h : fs.EndsAt path d name) {route : Route} (hroute : Route.ofText path = .ok route) :
    fs.site route = .ok ⟨d, some name⟩ ∧ route.slashed = false := by
  obtain ⟨route', before, hroute', hsegments, hslashed, hbefore⟩ := h.route
  cases hroute.symm.trans hroute'
  refine ⟨?_, hslashed⟩
  obtain ⟨entries, hentries⟩ := entries?_of_kind? h.kind
  have hsteps : Route.steps ⟨route.absolute, before, false⟩ = before := List.append_nil before
  have hfollow : fs.follow true ⟨route.absolute, before, false⟩ = .ok (.node d) := by
    rw [follow_eq, hsteps]
    exact hbefore
  unfold FileSystem.site
  simp only [hsegments, List.dropLast_concat, hfollow, bind, Except.bind, hentries,
    pure, Except.pure, List.getLast?_concat]
  have hname : (name != Route.self && name != Route.up) = true := by simp [h.ne_self, h.ne_up]
  rw [Option.filter_some, if_pos hname]

end EndsAt

/-- A path ends in one name of one directory. -/
theorem EndsAt.unique {fs : FileSystem} {path : Text} {d e : Inode} {name other : Bytes}
    (h : fs.EndsAt path d name) (h' : fs.EndsAt path e other) : d = e ∧ name = other := by
  obtain ⟨route, before, hroute, hsegments, -, hbefore⟩ := h.route
  obtain ⟨route', before', hroute', hsegments', -, hbefore'⟩ := h'.route
  cases hroute.symm.trans hroute'
  obtain ⟨rfl, hname⟩ := List.append_inj' (hsegments.symm.trans hsegments') rfl
  cases hbefore.symm.trans hbefore'
  exact ⟨rfl, List.singleton_inj.mp hname⟩

/-- The site of a route is its last segment, and where the others lead. -/
theorem exists_of_site {fs : FileSystem} {d : Inode} {name : Bytes} {route : Route}
    (h : fs.site route = .ok ⟨d, some name⟩) :
    ∃ before, route.segments = before ++ [name] ∧ fs.kind? d = some .directory ∧
      name ≠ Route.self ∧ name ≠ Route.up ∧
      fs.locateFrom true linkLimit (fs.start route) before = .ok (.node d) := by
  obtain ⟨habove, hkind, hlast⟩ := follow_of_site h
  obtain ⟨hlast, hself, hup⟩ := hlast name rfl
  obtain ⟨before, hsegments⟩ := List.getLast?_eq_some_iff.mp hlast
  refine ⟨before, hsegments, hkind, hself, hup, ?_⟩
  have hstart : fs.start ⟨route.absolute, before, false⟩ = fs.start route := rfl
  rw [follow_eq] at habove
  simpa [Route.steps, hsegments, hstart] using habove

theorem endsAt_of_site {fs : FileSystem} {path : Text} {d : Inode} {name : Bytes} {route : Route}
    (hroute : Route.ofText path = .ok route) (hslashed : route.slashed = false)
    (h : fs.site route = .ok ⟨d, some name⟩) : fs.EndsAt path d name := by
  obtain ⟨before, hsegments, hkind, hself, hup, hbefore⟩ := exists_of_site h
  exact ⟨⟨route, before, hroute, hsegments, hslashed, hbefore⟩, hkind, hself, hup⟩

/-- A single name that is looked up without following it is free only in the directory itself. -/
theorem vacancy_of_locateFrom {fs : FileSystem} {links : Nat} {e d : Inode} {segment name : Bytes}
    (h : fs.locateFrom false links e [segment] = .ok (.vacancy d name)) :
    d = e ∧ name = segment ∧ fs.kind? e = some .directory ∧ segment ≠ Route.self ∧
      segment ≠ Route.up := by
  have hadvance : fs.advance false e [segment] = .ok (.vacancy d name) := by
    cases hend : fs.advance false e [segment] with
    | error fault =>
      rw [locateFrom_of_error hend] at h
      cases h
    | ok arrival =>
      cases arrival with
      | node i =>
        rw [locateFrom_of_node hend] at h
        cases h
      | vacancy d' name' =>
        rw [locateFrom_of_vacancy hend] at h
        cases h
        rfl
      | link d' target rest =>
        -- the last name is never followed
        simp only [advance] at hend
        (repeat' split at hend) <;> simp_all
  simp only [advance] at hadvance
  split at hadvance
  · next above entries hnode =>
    split at hadvance
    · cases hadvance
    next hself =>
    split at hadvance
    · cases hadvance
    next hup =>
    split at hadvance
    · cases hadvance
    split at hadvance
    · rw [if_pos trivial] at hadvance
      cases hadvance
      exact ⟨rfl, rfl, kind?_of_node? hnode, hself, hup⟩
    · split at hadvance
      · split at hadvance <;> cases hadvance
      · cases hadvance
  · cases hadvance
  · cases hadvance

/-- A free name is the last one of its path, if that is no link. -/
theorem endsAt_of_vacancy {fs : FileSystem} {p : Path} {part : Text} (hne : part ≠ [])
    (hslash : CodePoint.ofChar '/' ∉ part) {d : Inode} {name : Bytes}
    (h : fs.locate false (p.child part).text = .ok (.vacancy d name)) :
    fs.EndsAt (p.child part).text d name ∧ Utf8.encode part = .ok name := by
  cases hroute : Route.ofText (p.child part).text with
  | error e =>
    unfold locate at h
    rw [hroute] at h
    cases h
  | ok route =>
    obtain ⟨before, bytes, hbytes, hsegments, hslashed⟩ := Route.ofText_child hne hslash hroute
    have hfollow : fs.locateFrom false linkLimit (fs.start route) (before ++ [bytes])
        = .ok (.vacancy d name) := by
      have hsteps : route.steps = before ++ [bytes] := by
        rw [Route.steps, hsegments, hslashed]
        simp
      unfold locate at h
      simp only [hroute, bind, Except.bind, follow_eq, hsteps] at h
      cases hend : fs.locateFrom false linkLimit (fs.start route) (before ++ [bytes]) with
      | error fault =>
        rw [hend] at h
        cases h
      | ok place =>
        rw [hend] at h
        cases h
        rfl
    rcases locateFrom_append fs false linkLimit (fs.start route) before
      (List.cons_ne_nil bytes []) with ⟨e, links, he, happend⟩ | ⟨-, fault, hfault⟩
    · rw [happend] at hfollow
      obtain ⟨rfl, rfl, hkind, hself, hup⟩ := vacancy_of_locateFrom hfollow
      exact ⟨⟨⟨route, before, hroute, hsegments, hslashed, he⟩, hkind, hself, hup⟩, hbytes⟩
    · rw [hfault] at hfollow
      cases hfollow

/-- The name in which a path ends is its last part. -/
theorem EndsAt.encode_name {fs : FileSystem} {path : Path} {d : Inode} {name : Bytes}
    (hplain : path.Plain) (h : fs.EndsAt path.text d name) : Utf8.encode path.name = .ok name := by
  obtain ⟨route, before, hroute, hsegments, -⟩ := h.route
  have hparts := Route.parts_ne_nil hroute hsegments h.ne_self
  rw [← Path.parent_child_name hparts] at hroute
  obtain ⟨before', bytes, hbytes, hsegments', -⟩ :=
    Route.ofText_child (hplain.name_ne_nil hparts) hplain.slash_not_mem_name hroute
  rw [hsegments] at hsegments'
  obtain rfl : name = bytes := by simpa using (List.append_inj' hsegments' rfl).2
  exact hbytes

/-! ## Publication -/

namespace Published

variable {fs gs : FileSystem} {d k : Inode} {name content : Bytes}

/-- A path ends where it ended before. -/
theorem endsAt_iff (hwhole : fs.Whole) (h : fs.Published gs d name k content)
    (hlink : ∀ j, fs.Holds d name j → fs.kind? j ≠ some .link) {path : Text} {e : Inode}
    {other : Bytes} : gs.EndsAt path e other ↔ fs.EndsAt path e other := by
  have hstart (route : Route) : gs.start route = fs.start route := by rw [start, h.here, start]
  constructor
  · intro hends
    obtain ⟨route, before, hroute, hsegments, hslashed, hbefore⟩ := hends.route
    have hchanged := h.locateFrom hwhole hlink true linkLimit (hwhole.start route) before
    rw [hstart] at hbefore
    rw [hbefore] at hchanged
    generalize hold : fs.locateFrom true linkLimit (fs.start route) before = old at hchanged
    have hdirectory := hends.kind
    cases hchanged with
    | ok hmoved =>
      cases hmoved with
      | kept hkept =>
        obtain ⟨above, listed, he⟩ := node?_of_kind? hdirectory
        obtain ⟨entries, he', -⟩ := h.node?_directory_of_after he
        exact ⟨⟨route, before, hroute, hsegments, hslashed, hold⟩, kind?_of_node? he',
          hends.ne_self, hends.ne_up⟩
      | replaced hholds =>
        rw [kind?, h.file] at hdirectory
        cases hdirectory
      | taken _ =>
        rw [kind?, h.file] at hdirectory
        cases hdirectory
  · intro hends
    obtain ⟨route, before, hroute, hsegments, hslashed, hbefore⟩ := hends.route
    have hchanged := h.locateFrom hwhole hlink true linkLimit (hwhole.start route) before
    rw [hbefore] at hchanged
    generalize hnew : gs.locateFrom true linkLimit (fs.start route) before = new at hchanged
    have hkept : ¬ fs.Holds d name e := fun hholds => (h.replaced e hholds).1 hends.kind
    cases hchanged with
    | ok hmoved =>
      cases hmoved with
      | kept _ =>
        refine ⟨⟨route, before, hroute, hsegments, hslashed, ?_⟩, h.kind?_kept hends.kind hkept,
          hends.ne_self, hends.ne_up⟩
        rw [hstart]
        exact hnew
      | replaced hholds => exact absurd hholds hkept

end Published

end FileSystem

end BundleManifest
