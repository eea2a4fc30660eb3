/-
# BundleManifest.Proofs.FileSystem.Resolution — the path of an entry leads to the entry

A text is `Askable` when the operating system takes it as a path, and `Fits` when it is not longer
than a path may be. A path that leads to a directory can be made longer by the name of an entry:
`stat_entryPath` says that the longer path leads to this entry, as long as it fits and the entry is
no link.
-/
import BundleManifest.Proofs.FileSystem.Soundness
import BundleManifest.Proofs.Text.Utf8
import BundleManifest.Walk.Order

namespace BundleManifest

open Walk (entryPath)

/-! ## Texts as paths -/

/-- A text has an encoding without a zero byte. -/
def Text.Askable (t : Text) : Prop := ∃ bytes, Utf8.encode t = .ok bytes ∧ (0 : UInt8) ∉ bytes

/-- A text has an encoding that is not longer than a path may be. -/
def Text.Fits (t : Text) : Prop :=
  ∃ bytes, Utf8.encode t = .ok bytes ∧ bytes.length ≤ Route.lengthLimit

theorem Text.length_le_of_fits {t : Text} (h : t.Fits) : t.length ≤ Route.lengthLimit := by
  obtain ⟨bytes, hbytes, hlength⟩ := h
  exact Nat.le_trans (Utf8.length_le_of_encode hbytes) hlength

/-- What a path starts with is not longer than the path. -/
theorem Text.Fits.of_prefix {t u : Text} (hu : u.Fits) (h : t <+: u) : t.Fits := by
  obtain ⟨rest, rfl⟩ := h
  obtain ⟨bytes, hbytes, hlength⟩ := hu
  obtain ⟨first, second, hfirst, -, rfl⟩ := Utf8.encode_append_iff.mp hbytes
  rw [List.length_append] at hlength
  exact ⟨first, hfirst, by omega⟩

theorem LegalName.slash_not_mem_decode {name : Bytes} (h : LegalName name) :
    CodePoint.ofChar '/' ∉ Utf8.decode name :=
  fun hmem => h.slash_not_mem ((Utf8.mem_decode_iff (by decide)).mp hmem)

namespace Walk

/-- The path of an entry goes on behind the slash that ends the directory, or behind a new one. -/
theorem entryPath_eq_append (directory name : Text) :
    ∃ start, directory <+: start ∧ start <+: directory ++ "/" ∧
      entryPath directory name = start ++ name := by
  unfold entryPath
  split
  · exact ⟨directory, List.prefix_rfl, List.prefix_append _ _, rfl⟩
  · exact ⟨directory ++ "/", List.prefix_append _ _, List.prefix_rfl, rfl⟩

theorem length_lt_entryPath {directory name : Text} (hname : name ≠ []) :
    directory.length < (entryPath directory name).length := by
  obtain ⟨start, hstart, -, heq⟩ := entryPath_eq_append directory name
  have hpos : 0 < name.length := List.length_pos_iff.mpr hname
  have hle := hstart.length_le
  rw [heq, List.length_append]
  omega

/-- The bytes of the path of an entry. -/
theorem encode_entryPath {directory : Text} {bytes name : Bytes}
    (h : Utf8.encode directory = .ok bytes) :
    ∃ front, (bytes = front ∨ bytes = front ++ [Route.slash]) ∧
      Utf8.encode (entryPath directory (Utf8.decode name))
        = .ok (front ++ Route.slash :: name) := by
  have hslash : Utf8.encode "/" = .ok [Route.slash] := rfl
  unfold entryPath
  split
  · next hlast =>
    obtain ⟨front, rfl⟩ := List.getLast?_eq_some_iff.mp hlast
    obtain ⟨first, second, hfirst, hsecond, rfl⟩ := Utf8.encode_append_iff.mp h
    have hsecond' : second = [Route.slash] := Except.ok.inj (hsecond.symm.trans hslash)
    subst hsecond'
    refine ⟨first, Or.inr rfl, ?_⟩
    exact Utf8.encode_append_iff.mpr ⟨_, name, h, Utf8.encode_decode name, by simp⟩
  · refine ⟨bytes, Or.inl rfl, ?_⟩
    have hfront : Utf8.encode (directory ++ "/") = .ok (bytes ++ [Route.slash]) :=
      Utf8.encode_append_iff.mpr ⟨_, _, h, hslash, rfl⟩
    exact Utf8.encode_append_iff.mpr ⟨_, name, hfront, Utf8.encode_decode name, by simp⟩

theorem askable_entryPath {directory : Text} {name : Bytes} (h : directory.Askable)
    (hname : LegalName name) : (entryPath directory (Utf8.decode name)).Askable := by
  obtain ⟨bytes, hbytes, hzero⟩ := h
  obtain ⟨front, hfront, hencode⟩ := @encode_entryPath _ _ name hbytes
  refine ⟨_, hencode, ?_⟩
  have hfront0 : (0 : UInt8) ∉ front := by
    rcases hfront with rfl | rfl
    · exact hzero
    · exact fun h0 => hzero (List.mem_append_left _ h0)
  rw [List.mem_append, List.mem_cons]
  rintro (h0 | h0 | h0)
  · exact hfront0 h0
  · exact absurd h0 (by decide)
  · exact hname.zero_not_mem h0

/-- A path that fits leaves no more room for a name than it has. -/
theorem length_add_le_of_fits {directory : Text} {name : Bytes} (h : directory.Askable)
    (hfits : (entryPath directory (Utf8.decode name)).Fits) :
    directory.length + name.length ≤ Route.lengthLimit := by
  obtain ⟨bytes, hbytes, -⟩ := h
  obtain ⟨front, hfront, hencode⟩ := @encode_entryPath _ _ name hbytes
  obtain ⟨bytes', hbytes', hlength⟩ := hfits
  have hle := Utf8.length_le_of_encode hbytes
  have heq : bytes' = front ++ Route.slash :: name :=
    Except.ok.inj (hbytes'.symm.trans hencode)
  rw [heq, List.length_append, List.length_cons] at hlength
  rcases hfront with rfl | rfl
  · omega
  · rw [List.length_append, List.length_singleton] at hle
    omega

end Walk

namespace Route

/-- A route that is made longer by a name has one more segment. -/
theorem ofBytes_entry {front bytes name : Bytes} (hbytes : bytes ≠ [])
    (hfront : bytes = front ∨ bytes = front ++ [slash]) (hne : name ≠ []) (hslash : slash ∉ name) :
    (ofBytes (front ++ slash :: name)).absolute = (ofBytes bytes).absolute ∧
      (ofBytes (front ++ slash :: name)).steps = (ofBytes bytes).segments ++ [name] := by
  have hlast : (front ++ slash :: name).getLast? = name.getLast? := by
    rw [List.getLast?_append, List.getLast?_cons]
    cases hl : name.getLast? with
    | none => exact absurd (List.getLast?_eq_none_iff.mp hl) hne
    | some b => rfl
  have hslashed : (name.getLast? == some slash) = false := by
    rw [beq_eq_false_iff_ne]
    exact fun hl => hslash (List.mem_of_getLast? hl)
  have hsegments : (cut slash (front ++ slash :: name)).filter (· != [])
      = (cut slash bytes).filter (· != []) ++ [name] := by
    have hcut : (cut slash bytes).filter (· != []) = (cut slash front).filter (· != []) := by
      rcases hfront with rfl | rfl
      · rfl
      · rw [cut_append, List.filter_append]
        simp [cut]
    rw [hcut, cut_append, cut_of_not_mem hslash, List.filter_append,
      List.filter_cons_of_pos (by simpa using hne), List.filter_nil]
  constructor
  · rcases hfront with rfl | rfl
    · cases bytes with
      | nil => exact absurd rfl hbytes
      | cons b rest => rfl
    · cases front <;> rfl
  · simp only [steps, ofBytes, hsegments, hlast, hslashed]
    simp

/-- A text that is no route is refused with a fault exactly when it can be asked for. -/
theorem ofText_error_iff_askable {path : Text} {e : PathFault} (h : ofText path = .error e) :
    (∃ fault, e = .fault fault) ↔ path.Askable := by
  unfold ofText at h
  unfold Text.Askable
  cases hbytes : Utf8.encode path with
  | error u =>
    rw [hbytes] at h
    cases h
    simp
  | ok bytes =>
    rw [hbytes] at h
    by_cases hzero : (0 : UInt8) ∈ bytes
    · simp only [List.contains_eq_mem, hzero, decide_true, if_true] at h
      cases h
      simp [hzero]
    · -- an empty path and one that is too long are faults
      refine iff_of_true ?_ ⟨bytes, rfl, hzero⟩
      simp only [List.contains_eq_mem, hzero, decide_false, Bool.false_eq_true, if_false] at h
      split at h
      · cases h
        exact ⟨_, rfl⟩
      split at h
      · cases h
        exact ⟨_, rfl⟩
      · cases h

/-- Something is looked up on every route. -/
theorem steps_ne_nil {bytes : Bytes} (h : bytes ≠ []) : (ofBytes bytes).steps ≠ [] := by
  intro hsteps
  obtain ⟨hsegments, hslashed⟩ := List.append_eq_nil_iff.mp hsteps
  -- the last byte is a slash, and then there is a point, or it belongs to a segment
  obtain ⟨front, b, rfl⟩ : ∃ front b, bytes = front ++ [b] :=
    ⟨bytes.dropLast, bytes.getLast h, (List.dropLast_concat_getLast h).symm⟩
  by_cases hb : b = slash
  · subst hb
    simp [ofBytes] at hslashed
  · obtain ⟨piece, hpiece, hmem⟩ := exists_mem_cut (t := front ++ [b]) (by simp) hb
    have hne : piece ≠ [] := List.ne_nil_of_mem hmem
    have hsegment : piece ∈ (ofBytes (front ++ [b])).segments :=
      List.mem_filter.mpr ⟨hpiece, by simpa using hne⟩
    rw [hsegments] at hsegment
    cases hsegment

end Route

namespace FileSystem

/-! ## Asking for paths -/

theorem find_of_refused {fs : FileSystem} {path : Text} {e : PathFault}
    (h : Route.ofText path = .error e) (followLast : Bool) :
    fs.find followLast path = .error e := by
  unfold find locate
  rw [h]
  rfl

/-- What a path names is decided by following its route. -/
theorem find_of_route {fs : FileSystem} {path : Text} {route : Route}
    (h : Route.ofText path = .ok route) (followLast : Bool) :
    fs.find followLast path =
      match fs.follow followLast route with
      | .ok (.node i) => .ok i
      | .ok (.vacancy ..) => .error (.fault .missing)
      | .error fault => .error (.fault fault) := by
  unfold find locate
  rw [h]
  cases hfollow : fs.follow followLast route with
  | error fault => simp [bind, Except.bind, Except.mapError, hfollow]
  | ok place =>
    cases place <;>
      simp [bind, Except.bind, Except.mapError, pure, Except.pure, throw, throwThe,
        MonadExceptOf.throw, hfollow]

theorem find_eq_ok_iff {fs : FileSystem} {followLast : Bool} {path : Text} {i : Inode} :
    fs.find followLast path = .ok i ↔
      ∃ route, Route.ofText path = .ok route ∧ fs.follow followLast route = .ok (.node i) := by
  constructor
  · intro h
    cases hroute : Route.ofText path with
    | error fault =>
      rw [find_of_refused hroute] at h
      cases h
    | ok route =>
      rw [find_of_route hroute] at h
      split at h
      · next found hfollow =>
        cases h
        exact ⟨route, rfl, hfollow⟩
      · cases h
      · cases h
  · rintro ⟨route, hroute, hfollow⟩
    rw [find_of_route hroute, hfollow]

theorem stat_of_refused {fs : FileSystem} {path : Text} {e : PathFault}
    (h : Route.ofText path = .error e) : fs.stat path = .error e :=
  find_of_refused h true

/-- Where a path leads is decided by following its route, links included. -/
theorem stat_of_route {fs : FileSystem} {path : Text} {route : Route}
    (h : Route.ofText path = .ok route) :
    fs.stat path =
      match fs.follow true route with
      | .ok (.node i) => .ok i
      | .ok (.vacancy ..) => .error (.fault .missing)
      | .error fault => .error (.fault fault) :=
  find_of_route h true

theorem stat_eq_ok_iff {fs : FileSystem} {path : Text} {i : Inode} :
    fs.stat path = .ok i ↔
      ∃ route, Route.ofText path = .ok route ∧ fs.follow true route = .ok (.node i) :=
  find_eq_ok_iff

/-- Where a path leads, it is one that the operating system takes. -/
theorem askable_of_stat {fs : FileSystem} {path : Text} {i : Inode} (h : fs.stat path = .ok i) :
    path.Askable := by
  obtain ⟨route, hroute, -⟩ := stat_eq_ok_iff.mp h
  obtain ⟨bytes, hbytes, hzero, -⟩ := Route.ofText_eq_ok_iff.mp hroute
  exact ⟨bytes, hbytes, hzero⟩

theorem fits_of_stat {fs : FileSystem} {path : Text} {i : Inode} (h : fs.stat path = .ok i) :
    path.Fits := by
  obtain ⟨route, hroute, -⟩ := stat_eq_ok_iff.mp h
  obtain ⟨bytes, hbytes, -, -, hlength, -⟩ := Route.ofText_eq_ok_iff.mp hroute
  exact ⟨bytes, hbytes, hlength⟩

/-- The operating system answers what it can be asked, if only with a fault. -/
theorem stat_error_iff_askable {fs : FileSystem} {path : Text} {e : PathFault}
    (h : fs.stat path = .error e) : (∃ fault, e = .fault fault) ↔ path.Askable := by
  cases hroute : Route.ofText path with
  | ok route =>
    obtain ⟨bytes, hbytes, hzero, -⟩ := Route.ofText_eq_ok_iff.mp hroute
    rw [stat_of_route hroute] at h
    have hfault : ∃ fault, e = .fault fault := by
      split at h
      · cases h
      · cases h
        exact ⟨_, rfl⟩
      · cases h
        exact ⟨_, rfl⟩
    exact iff_of_true hfault ⟨bytes, hbytes, hzero⟩
  | error refusal =>
    rw [stat_of_refused hroute] at h
    cases h
    exact Route.ofText_error_iff_askable hroute

/-- Listing a path asks where it leads. -/
theorem scan_eq_ok_iff {fs : FileSystem} {path : Text} {listed : List DirectoryEntry} :
    fs.scan path = .ok listed ↔
      ∃ d entries, fs.stat path = .ok d ∧ fs.entries? d = some entries ∧
        fs.listing entries = listed := by
  unfold scan
  cases hstat : fs.stat path with
  | error e => simp [bind, Except.bind]
  | ok d =>
    cases hentries : fs.entries? d with
    | none => simp [bind, Except.bind, throw, throwThe, MonadExceptOf.throw, hentries]
    | some entries => simp [bind, Except.bind, pure, Except.pure, hentries]

theorem scan_of_not_directory {fs : FileSystem} {path : Text} {d : Inode}
    (hstat : fs.stat path = .ok d) (hd : fs.entries? d = none) :
    fs.scan path = .error (.fault .notDirectory) := by
  unfold scan
  rw [hstat]
  simp [bind, Except.bind, throw, throwThe, MonadExceptOf.throw, hd]

theorem scan_error_of_askable {fs : FileSystem} {path : Text} (hpath : path.Askable)
    {e : PathFault} (h : fs.scan path = .error e) : ∃ fault, e = .fault fault := by
  unfold scan at h
  cases hstat : fs.stat path with
  | error e' =>
    rw [hstat] at h
    cases h
    exact (stat_error_iff_askable hstat).mpr hpath
  | ok d =>
    rw [hstat] at h
    cases hentries : fs.entries? d with
    | none =>
      simp only [bind, Except.bind, hentries, throw, throwThe, MonadExceptOf.throw] at h
      cases h
      exact ⟨_, rfl⟩
    | some entries =>
      simp only [bind, Except.bind, hentries, pure, Except.pure] at h
      cases h

/-! ## One name -/

/-- What is looked up from a node that is no directory. -/
theorem advance_of_not_directory {fs : FileSystem} {i : Inode} {node : Node} (hi : fs.node? i = some node)
    (hnode : node.kind ≠ .directory) (followLast : Bool) (segments : List Bytes) :
    fs.advance followLast i segments
      = if segments = [] then .ok (.node i) else .error .notDirectory := by
  cases segments with
  | nil => rfl
  | cons segment rest =>
    unfold advance
    rw [hi]
    cases node with
    | directory above entries => exact absurd rfl hnode
    | regular bytes => rfl
    | link target => rfl
    | pipe => rfl
    | device => rfl

section
variable {fs : FileSystem} {current above : Inode} {entries : List (Bytes × Inode)}
  (hnode : fs.node? current = some (.directory above entries)) {segment : Bytes}
  (hself : segment ≠ Route.self) (hup : segment ≠ Route.up)
  (hlength : ¬ Route.nameLimit < segment.length)
include hnode hself hup hlength

/-- Looking up a name that a directory does not have. -/
theorem advance_of_free (h : entries.lookup segment = none) (followLast : Bool)
    (rest : List Bytes) :
    fs.advance followLast current (segment :: rest)
      = if rest = [] then .ok (.vacancy current segment) else .error .missing := by
  simp only [advance, hnode, if_neg hself, if_neg hup, if_neg hlength, h]

/-- Looking up a name that stands for a link. -/
theorem advance_of_link {i : Inode} {target : Bytes} (h : entries.lookup segment = some i)
    (hi : fs.node? i = some (.link target)) (followLast : Bool) (rest : List Bytes) :
    fs.advance followLast current (segment :: rest)
      = if rest = [] && !followLast then .ok (.node i) else .ok (.link current target rest) := by
  simp only [advance, hnode, if_neg hself, if_neg hup, if_neg hlength, h, hi]

/-- Looking up a name that stands for something else goes on from there. -/
theorem advance_of_entry {i : Inode} {node : Node} (h : entries.lookup segment = some i)
    (hi : fs.node? i = some node) (hkind : node.kind ≠ .link) (followLast : Bool)
    (rest : List Bytes) :
    fs.advance followLast current (segment :: rest) = fs.advance followLast i rest := by
  conv_lhs => unfold advance
  simp only [hnode, if_neg hself, if_neg hup, if_neg hlength, h, hi]
  cases node with
  | link target => exact absurd rfl hkind
  | directory above' entries' => rfl
  | regular bytes => rfl
  | pipe => rfl
  | device => rfl

end

/-- Why looking up can fail before a link is followed. -/
theorem fault_of_advance {fs : FileSystem} {followLast : Bool} {current : Inode}
    {segments : List Bytes} {fault : FileFault}
    (h : fs.advance followLast current segments = .error fault) :
    fault = .missing ∨ fault = .notDirectory ∨ fault = .nameTooLong := by
  fun_induction fs.advance followLast current segments <;> simp_all

/-! ## One segment more -/

/-- Looking up goes on where the first segments lead. -/
theorem advance_append (fs : FileSystem) (followLast : Bool) (current : Inode) (xs : List Bytes)
    {ys : List Bytes} (hys : ys ≠ []) :
    fs.advance followLast current (xs ++ ys) =
      match fs.advance true current xs with
      | .error fault => .error fault
      | .ok (.node d) => fs.advance followLast d ys
      | .ok (.vacancy ..) => .error .missing
      | .ok (.link d target rest) => .ok (.link d target (rest ++ ys)) := by
  -- along the segments, in the cases of `advance`; only a missing name needs to know whether it is
  -- the last one
  induction xs generalizing current with
  | nil => simp [advance]
  | cons segment xs ih =>
    have hne : xs ++ ys ≠ [] := by simp [hys]
    simp only [List.cons_append, advance]
    split
    · next parent entries hnode =>
      split
      · exact ih current
      split
      · exact ih parent
      split
      · rfl
      cases hlookup : entries.lookup segment with
      | none =>
        by_cases hxs : xs = []
        · simp [hxs]
        · simp [hxs]
      | some i =>
        -- a link on the way is followed in any case
        simp only [hne, decide_false, Bool.false_and, Bool.not_true, Bool.and_false,
          Bool.false_eq_true, if_false]
        split
        · rfl
        · exact ih i
    · rfl
    · rfl

theorem locateFrom_of_node {fs : FileSystem} {followLast : Bool} {current i : Inode}
    {xs : List Bytes} (h : fs.advance followLast current xs = .ok (.node i)) (links : Nat) :
    fs.locateFrom followLast links current xs = .ok (.node i) := by
  unfold locateFrom
  rw [h]

theorem locateFrom_of_error {fs : FileSystem} {followLast : Bool} {current : Inode}
    {xs : List Bytes} {fault : FileFault} (h : fs.advance followLast current xs = .error fault)
    (links : Nat) : fs.locateFrom followLast links current xs = .error fault := by
  unfold locateFrom
  rw [h]

theorem locateFrom_of_vacancy {fs : FileSystem} {followLast : Bool} {current d : Inode}
    {xs : List Bytes} {name : Bytes} (h : fs.advance followLast current xs = .ok (.vacancy d name))
    (links : Nat) : fs.locateFrom followLast links current xs = .ok (.vacancy d name) := by
  unfold locateFrom
  rw [h]

/-- A link is replaced by its target as long as links may be followed. -/
theorem locateFrom_of_link {fs : FileSystem} {followLast : Bool} {current d : Inode}
    {xs rest : List Bytes} {target : Bytes}
    (h : fs.advance followLast current xs = .ok (.link d target rest)) (links : Nat) :
    fs.locateFrom followLast links current xs =
      match links with
      | 0 => .error .tooManyLinks
      | links + 1 =>
        fs.locateFrom followLast links (if (Route.ofBytes target).absolute then rootInode else d)
          ((Route.ofBytes target).steps ++ rest) := by
  cases links with
  | zero =>
    unfold locateFrom
    rw [h]
  | succ links =>
    rw [locateFrom]
    rw [h]

/-- Looking something up starts in a directory. -/
theorem kind?_of_locateFrom {fs : FileSystem} {followLast : Bool} {links : Nat} {current : Inode}
    {xs : List Bytes} {place : Place} (hxs : xs ≠ [])
    (h : fs.locateFrom followLast links current xs = .ok place) :
    fs.kind? current = some .directory := by
  cases xs with
  | nil => exact absurd rfl hxs
  | cons segment rest =>
    have hadvance : fs.kind? current = some .directory ∨
        ∃ fault, fs.advance followLast current (segment :: rest) = .error fault := by
      simp only [advance]
      split
      · next hnode =>
        refine Or.inl ?_
        exact kind?_of_node? hnode
      · exact Or.inr ⟨_, rfl⟩
      · exact Or.inr ⟨_, rfl⟩
    rcases hadvance with hkind | ⟨fault, hfault⟩
    · exact hkind
    · rw [locateFrom_of_error hfault] at h
      cases h

/-- Where a path leads somewhere there is a directory to start from. -/
theorem exists_directory_of_stat {fs : FileSystem} {path : Text} {i : Inode}
    (h : fs.stat path = .ok i) : ∃ d, fs.kind? d = some .directory := by
  obtain ⟨route, hroute, hfollow⟩ := stat_eq_ok_iff.mp h
  obtain ⟨bytes, -, -, hne, -, rfl⟩ := Route.ofText_eq_ok_iff.mp hroute
  exact ⟨_, kind?_of_locateFrom (Route.steps_ne_nil hne) hfollow⟩

/-- Segments that lead to a node may be followed by others, which are looked up from there. Where
they lead to no node, longer ones lead nowhere. -/
theorem locateFrom_append (fs : FileSystem) (followLast : Bool) (links : Nat) (current : Inode)
    (xs : List Bytes) {ys : List Bytes} (hys : ys ≠ []) :
    (∃ d k, fs.locateFrom true links current xs = .ok (.node d) ∧
      fs.locateFrom followLast links current (xs ++ ys) = fs.locateFrom followLast k d ys) ∨
    (∀ i, fs.locateFrom true links current xs ≠ .ok (.node i)) ∧
      ∃ fault, fs.locateFrom followLast links current (xs ++ ys) = .error fault := by
  have happend := advance_append fs followLast current xs hys
  cases hxs : fs.advance true current xs with
  | error fault =>
    rw [hxs] at happend
    rw [locateFrom_of_error hxs, locateFrom_of_error happend]
    exact Or.inr ⟨fun i => by simp, fault, rfl⟩
  | ok arrival =>
    rw [hxs] at happend
    cases arrival with
    | node d =>
      refine Or.inl ⟨d, links, locateFrom_of_node hxs links, ?_⟩
      unfold locateFrom
      rw [happend]
    | vacancy d name =>
      rw [locateFrom_of_vacancy hxs, locateFrom_of_error happend]
      exact Or.inr ⟨fun i => by simp, _, rfl⟩
    | link d target rest =>
      rw [locateFrom_of_link hxs, locateFrom_of_link happend]
      cases links with
      | zero => exact Or.inr ⟨fun i => by simp, _, rfl⟩
      | succ links =>
        -- the target is put in front of what is left, and the segments `ys` stay at the end
        have hlink := locateFrom_append fs followLast links
          (if (Route.ofBytes target).absolute then rootInode else d)
          ((Route.ofBytes target).steps ++ rest) hys
        rw [List.append_assoc] at hlink
        exact hlink

/-- A point after a path adds nothing. -/
theorem locateFrom_append_self {fs : FileSystem} {links : Nat} {current d : Inode}
    {xs : List Bytes}
    (h : fs.locateFrom true links current (xs ++ [Route.self]) = .ok (.node d)) :
    fs.locateFrom true links current xs = .ok (.node d) := by
  rcases locateFrom_append fs true links current xs (List.cons_ne_nil Route.self []) with
    ⟨e, k, hxs, happend⟩ | ⟨-, fault, hfault⟩
  · rw [happend] at h
    have hself : fs.advance true e [Route.self] = .ok (.node e) ∨
        ∃ fault, fs.advance true e [Route.self] = .error fault := by
      simp only [advance, if_true]
      split
      · exact Or.inl rfl
      · exact Or.inr ⟨_, rfl⟩
      · exact Or.inr ⟨_, rfl⟩
    rcases hself with hself | ⟨fault, hself⟩
    · rw [locateFrom_of_node hself] at h
      cases h
      exact hxs
    · rw [locateFrom_of_error hself] at h
      cases h
  · rw [hfault] at h
    cases h

/-- After segments that lead to a directory, a name leads to the entry, unless that is a link. -/
theorem locateFrom_append_name {fs : FileSystem} {links : Nat} {current d c : Inode}
    {xs : List Bytes} {name : Bytes} {entries : List (Bytes × Inode)}
    (h : fs.locateFrom true links current xs = .ok (.node d)) (hd : fs.entries? d = some entries)
    (hname : LegalName name) (hc : entries.lookup name = some c) (hlink : fs.kind? c ≠ some .link) :
    fs.locateFrom true links current (xs ++ [name]) = .ok (.node c) := by
  have hadvance : fs.advance true d [name] = .ok (.node c) := by
    unfold entries? at hd
    split at hd
    · next parent listed hnode =>
      cases hd
      simp only [advance, hnode, if_neg hname.ne_self, if_neg hname.ne_up,
        if_neg (Nat.not_lt.mpr hname.length_le), hc]
      split
      · next target hnode =>
        exact absurd (kind?_of_node? hnode) hlink
      · rfl
    · cases hd
  rcases locateFrom_append fs true links current xs (List.cons_ne_nil name []) with
    ⟨e, k, hxs, happend⟩ | ⟨hnone, -⟩
  · have hed : e = d := by
      rw [h] at hxs
      cases hxs
      rfl
    subst hed
    rw [happend]
    exact locateFrom_of_node hadvance k
  · exact absurd h (hnone d)

/-- Each name of a directory stands for one entry. -/
theorem lookup_of_mem {entries : List (Bytes × Inode)} (hnodup : (entries.map Prod.fst).Nodup)
    {name : Bytes} {c : Inode} (h : (name, c) ∈ entries) : entries.lookup name = some c := by
  induction entries with
  | nil => cases h
  | cons e entries ih =>
    obtain ⟨other, i⟩ := e
    rw [List.map_cons, List.nodup_cons] at hnodup
    rcases List.mem_cons.mp h with heq | hmem
    · cases heq
      simp
    · have hne : (name == other) = false := by
        rw [beq_eq_false_iff_ne]
        rintro rfl
        exact hnodup.1 (List.mem_map.mpr ⟨_, hmem, rfl⟩)
      rw [List.lookup_cons, hne]
      exact ih hnodup.2 hmem

/-- The path of an entry leads to the entry. -/
theorem stat_entryPath {fs : FileSystem} (hfs : fs.Sound) {path : Text} {d c : Inode}
    {name : Bytes} {entries : List (Bytes × Inode)} (hpath : fs.stat path = .ok d)
    (hd : fs.entries? d = some entries) (hc : (name, c) ∈ entries) (hlink : fs.kind? c ≠ some .link)
    (hfits : (entryPath path (Utf8.decode name)).Fits) :
    fs.stat (entryPath path (Utf8.decode name)) = .ok c := by
  obtain ⟨hlegal, hnodup⟩ := hfs.entries hd
  have hname : LegalName name := hlegal _ hc
  obtain ⟨route, hroute, hfollow⟩ := stat_eq_ok_iff.mp hpath
  obtain ⟨bytes, hbytes, hzero, hne, -, rfl⟩ := Route.ofText_eq_ok_iff.mp hroute
  obtain ⟨front, hfront, hencode⟩ := @Walk.encode_entryPath _ _ name hbytes
  obtain ⟨habsolute, hsteps⟩ := Route.ofBytes_entry hne hfront hname.ne_nil hname.slash_not_mem
  have hlonger : Route.ofText (entryPath path (Utf8.decode name))
      = .ok (Route.ofBytes (front ++ Route.slash :: name)) := by
    obtain ⟨bytes', hbytes', hzero'⟩ := Walk.askable_entryPath ⟨bytes, hbytes, hzero⟩ hname
    obtain ⟨bytes'', hbytes'', hlength⟩ := hfits
    rw [hencode] at hbytes' hbytes''
    cases hbytes'
    cases hbytes''
    exact Route.ofText_eq_ok_iff.mpr ⟨_, hencode, hzero', by simp, hlength, rfl⟩
  refine stat_eq_ok_iff.mpr ⟨_, hlonger, ?_⟩
  unfold follow at hfollow ⊢
  rw [habsolute, hsteps]
  refine locateFrom_append_name ?_ hd hname (lookup_of_mem hnodup hc) hlink
  -- the steps of a slashed path end in a point, which the longer path does not have
  unfold Route.steps at hfollow
  cases hslashed : (Route.ofBytes bytes).slashed with
  | true =>
    rw [hslashed] at hfollow
    exact locateFrom_append_self hfollow
  | false =>
    rw [hslashed] at hfollow
    simpa using hfollow

end FileSystem

end BundleManifest
