/-
# BundleManifest.Proofs.FileSystem.Unfolding — replacing links gives the real path

Whatever a path leads to, `canonical` makes its real path of it (`canonical_of_stat`): the names that
lead down from the root. The links on the way are replaced as they are met, and where they lead is kept
for the next time. What is kept is right (`Remembers`), and a link that is still being replaced is not met
again, because every link on the way to the end of its target has fewer links before it (`Pending`).

The paths that are asked for on the way have to be short enough; a path is `Roomy` when it is, with the
targets of its links added.
-/
import BundleManifest.Proofs.FileSystem.Standing

namespace BundleManifest.FileSystem

/-! ## Pieces -/

/-- The pieces of a path that name something. -/
def telling (pieces : List Text) : List Text :=
  pieces.filter fun piece => piece != [] && piece != Text.dot

/-- A path is cut into its steps. -/
theorem telling_split (bytes : Bytes) :
    telling (Text.split '/' (Utf8.decode bytes))
      = ((Route.ofBytes bytes).steps.filter (· != Route.self)).map Utf8.decode := by
  have hcut : Text.split '/' (Utf8.decode bytes) = (cut Route.slash bytes).map Utf8.decode :=
    Utf8.cut_decode (by decide : Route.slash.toNat < 0x80) bytes
  rw [hcut, Route.filter_steps, List.filter_filter]
  unfold telling
  rw [List.filter_map]
  refine congrArg (List.map Utf8.decode) (List.filter_congr fun piece _ => ?_)
  have hnil : (Utf8.decode piece != []) = (piece != []) := by
    rw [Bool.eq_iff_iff, bne_iff_ne, bne_iff_ne, Ne, Utf8.decode_eq_nil_iff]
  have hdot : (Utf8.decode piece != Text.dot) = (piece != Route.self) := by
    rw [Bool.eq_iff_iff, bne_iff_ne, bne_iff_ne, Ne, Utf8.decode_eq_dot_iff]
  show (Utf8.decode piece != [] && Utf8.decode piece != Text.dot) = _
  rw [hnil, hdot, Bool.and_comm]

section
variable {fs : FileSystem} {enter : Unfolding → Text → Except PathFault Unfolding} {u : Unfolding}
  {piece : Text} {pieces : List Text}

theorem unfoldPieces_of_dotdot :
    fs.unfoldPieces enter u (Text.dotdot :: pieces)
      = fs.unfoldPieces enter { u with path := above u.path } pieces := by
  conv_lhs => unfold unfoldPieces
  rw [if_neg (by decide), if_pos rfl]

/-- Pieces that say nothing are passed over. -/
theorem unfoldPieces_of_telling_eq_nil (h : telling pieces = []) (more : List Text) :
    fs.unfoldPieces enter u (pieces ++ more) = fs.unfoldPieces enter u more := by
  induction pieces with
  | nil => rfl
  | cons piece pieces ih =>
    have hall := List.filter_eq_nil_iff.mp h
    have hpiece : (decide (piece = []) || decide (piece = Text.dot)) = true := by
      have hnot := hall piece List.mem_cons_self
      by_cases hnil : piece = []
      · simp [hnil]
      · simpa [hnil] using hnot
    rw [List.cons_append]
    conv_lhs => unfold unfoldPieces
    rw [if_pos hpiece]
    exact ih (List.filter_eq_nil_iff.mpr fun other hother => hall other (List.mem_cons_of_mem _ hother))

/-- The first piece that says something is the next one. -/
theorem exists_piece {part : Text} {parts : List Text} (h : telling pieces = part :: parts) :
    (part ≠ [] ∧ part ≠ Text.dot) ∧ ∃ rest, telling rest = parts ∧
      ∀ enter u more, fs.unfoldPieces enter u (pieces ++ more)
        = fs.unfoldPieces enter u (part :: (rest ++ more)) := by
  obtain ⟨front, rest, rfl, hfront, hpart, hrest⟩ := List.filter_eq_cons_iff.mp h
  refine ⟨by simpa using hpart, rest, hrest, fun enter u more => ?_⟩
  rw [List.append_assoc]
  exact unfoldPieces_of_telling_eq_nil (List.filter_eq_nil_iff.mpr hfront) _

section
variable (hpiece : piece ≠ [] ∧ piece ≠ Text.dot) (hup : piece ≠ Text.dotdot)
include hpiece hup

/-- A piece that names no link is one more part. -/
theorem unfoldPieces_of_other (hlink : fs.linkTarget? (u.path.child piece).text = .ok none) :
    fs.unfoldPieces enter u (piece :: pieces)
      = fs.unfoldPieces enter { u with path := u.path.child piece } pieces := by
  conv_lhs => unfold unfoldPieces
  rw [if_neg (by simpa using hpiece), if_neg hup]
  simp only [hlink]
  rfl

variable {target : Text}
  (hlink : fs.linkTarget? (u.path.child piece).text = .ok (some target))
include hlink

/-- A link that has been met is not replaced again. -/
theorem unfoldPieces_of_seen {path : Path}
    (hseen : u.seen.lookup (u.path.child piece).text = some (some path)) :
    fs.unfoldPieces enter u (piece :: pieces)
      = fs.unfoldPieces enter { u with path } pieces := by
  conv_lhs => unfold unfoldPieces
  rw [if_neg (by simpa using hpiece), if_neg hup]
  simp only [hlink, hseen]
  rfl

/-- A link that is met for the first time is replaced by what its target becomes. -/
theorem unfoldPieces_of_new (hseen : u.seen.lookup (u.path.child piece).text = none)
    {inner : Unfolding}
    (henter : enter { u with seen := ((u.path.child piece).text, none) :: u.seen } target = .ok inner)
    (hfinished : inner.finished = true) :
    fs.unfoldPieces enter u (piece :: pieces)
      = fs.unfoldPieces enter
          { inner with seen := ((u.path.child piece).text, some inner.path) :: inner.seen }
          pieces := by
  conv_lhs => unfold unfoldPieces
  rw [if_neg (by simpa using hpiece), if_neg hup]
  simp only [hlink, hseen, bind, Except.bind, henter, hfinished, if_true]

end

end

/-! ## Links and where they lead -/

section
variable {fs : FileSystem} (hfs : fs.Sound) (hwhole : fs.Whole) {path : Text} {d : Inode}
  {name : Bytes} (h : fs.EndsAt path d name)
include hfs hwhole h

/-- Where no link has the name, the path has no target. -/
theorem EndsAt.linkTarget?_of_other (hlink : ∀ j, fs.Holds d name j → fs.kind? j ≠ some .link) :
    fs.linkTarget? path = .ok none := by
  by_cases hexists : ∃ j, fs.Holds d name j
  · obtain ⟨j, hholds⟩ := hexists
    obtain ⟨node, hj⟩ := Option.ne_none_iff_exists'.mp (hwhole.entry hholds)
    exact FileSystem.linkTarget?_of_other (h.find_of_holds hfs hholds hj (Or.inl rfl))
      (hlink j hholds)
  · obtain ⟨above, entries, hd⟩ := node?_of_kind? h.kind
    have hrefused : ∃ fault, fs.find false path = .error (.fault fault) := by
      obtain ⟨links, hlocate⟩ := h.locate false
      unfold find
      rw [hlocate]
      by_cases hlength : Route.nameLimit < name.length
      · have hadvance : fs.advance false d [name] = .error .nameTooLong := by
          simp only [advance, hd, if_neg h.ne_self, if_neg h.ne_up, if_pos hlength]
        rw [locateFrom_of_error hadvance]
        exact ⟨_, rfl⟩
      · cases hlookup : entries.lookup name with
        | none =>
          have hadvance := advance_of_free hd h.ne_self h.ne_up hlength hlookup false []
          rw [if_pos rfl] at hadvance
          rw [locateFrom_of_vacancy hadvance]
          exact ⟨_, rfl⟩
        | some j => exact absurd ⟨j, holds_of_lookup hd hlookup⟩ hexists
    obtain ⟨fault, hfault⟩ := hrefused
    exact linkTarget?_of_error hfault

omit hwhole in
/-- Where a link has the name, the path has its target. -/
theorem EndsAt.linkTarget?_of_link {j : Inode} {target : Bytes} (hholds : fs.Holds d name j)
    (hj : fs.node? j = some (.link target)) :
    fs.linkTarget? path = .ok (some (Utf8.decode target)) :=
  FileSystem.linkTarget?_of_link (h.find_of_holds hfs hholds hj (Or.inl rfl)) hj

end

/-- A path names a link, whose target leads to a node by way of so many links; with the targets written
out the path has no more than `room` bytes. -/
def Replaces (fs : FileSystem) (t : Text) (links room : Nat) (i : Inode) : Prop :=
  ∃ bytes d name j target added, Utf8.encode t = .ok bytes ∧ fs.lstat t = .ok j ∧
    fs.Holds d name j ∧ fs.node? j = some (.link target) ∧
    Passage fs (targetStart d target) (Route.ofBytes target).steps links added i ∧
    room = bytes.length + target.length + added + 2

/-- A link leads to one node. -/
theorem Replaces.unique {fs : FileSystem} (hfs : fs.Sound) (hwhole : fs.Whole) {t : Text}
    {links room links' room' : Nat} {i i' : Inode} (h : fs.Replaces t links room i)
    (h' : fs.Replaces t links' room' i') : links = links' ∧ room = room' ∧ i = i' := by
  obtain ⟨bytes, d, name, j, target, added, hbytes, hlstat, hholds, hj, hpassage, rfl⟩ := h
  obtain ⟨bytes', d', name', j', target', added', hbytes', hlstat', hholds', hj', hpassage', rfl⟩ := h'
  cases hbytes.symm.trans hbytes'
  cases hlstat.symm.trans hlstat'
  cases hj.symm.trans hj'
  obtain ⟨rfl, -⟩ := hwhole.listed_once hholds hholds'
  obtain ⟨rfl, rfl, rfl⟩ := hpassage.unique hfs hpassage'
  exact ⟨rfl, rfl, rfl⟩

/-- What is kept of the links that have been replaced: a path of the node that each of them leads to. -/
def Remembers (fs : FileSystem) (seen : List (Text × Option Path)) : Prop :=
  ∀ t path, seen.lookup t = some (some path) →
    ∃ route links room i, path = Route.path route ∧ fs.Stands route i ∧
      fs.Replaces t links room i ∧ route.width ≤ room

/-- The links that are being replaced have at least so many links on the way to the ends of their
targets. -/
def Pending (fs : FileSystem) (links : Nat) (seen : List (Text × Option Path)) : Prop :=
  ∀ t, seen.lookup t = some none → ∃ more room i, fs.Replaces t more room i ∧ links ≤ more

theorem Pending.mono {fs : FileSystem} {links fewer : Nat} {seen later : List (Text × Option Path)}
    (h : fs.Pending links seen) (hle : fewer ≤ links)
    (hlater : ∀ t, later.lookup t = some none → seen.lookup t = some none) :
    fs.Pending fewer later := by
  intro t ht
  obtain ⟨more, room, i, hreplaces, hmore⟩ := h t (hlater t ht)
  exact ⟨more, room, i, hreplaces, Nat.le_trans hle hmore⟩

theorem Remembers.cons {fs : FileSystem} {seen : List (Text × Option Path)}
    (h : fs.Remembers seen) {t : Text} {route : Route} {links room : Nat} {i : Inode}
    (hstands : fs.Stands route i) (hreplaces : fs.Replaces t links room i)
    (hroom : route.width ≤ room) : fs.Remembers ((t, some route.path) :: seen) := by
  intro other path hother
  rw [List.lookup_cons] at hother
  split at hother
  · next heq =>
    obtain rfl := beq_iff_eq.mp heq
    cases hother
    exact ⟨route, links, room, i, rfl, hstands, hreplaces, hroom⟩
  · exact h other path hother

/-- Nothing is remembered of a link that is being replaced. -/
theorem Remembers.cons_none {fs : FileSystem} {seen : List (Text × Option Path)}
    (h : fs.Remembers seen) (t : Text) : fs.Remembers ((t, none) :: seen) := by
  intro other path hother
  rw [List.lookup_cons] at hother
  split at hother
  · cases hother
  · exact h other path hother

theorem Pending.cons_none {fs : FileSystem} {seen : List (Text × Option Path)} {links : Nat}
    (h : fs.Pending links seen) {t : Text} {more room : Nat} {i : Inode}
    (hreplaces : fs.Replaces t more room i) (hle : links ≤ more) :
    fs.Pending links ((t, none) :: seen) := by
  intro other hother
  rw [List.lookup_cons] at hother
  split at hother
  · next heq =>
    obtain rfl := beq_iff_eq.mp heq
    exact ⟨more, room, i, hreplaces, hle⟩
  · exact h other hother

/-- Following pieces leads from one path to another; no link is left that is being replaced. -/
structure Follows (fs : FileSystem) (depth : Nat) (u : Unfolding) (pieces : List Text)
    (v : Unfolding) : Prop where
  unfolds : ∀ more, fs.unfoldPieces (fs.unfold depth) u (pieces ++ more)
    = fs.unfoldPieces (fs.unfold depth) v more
  remembers : fs.Remembers v.seen
  pending : ∀ t, v.seen.lookup t = some none → u.seen.lookup t = some none

/-- Pieces are followed, and then others. -/
theorem Follows.append {fs : FileSystem} {depth : Nat} {u v w : Unfolding} {xs ys : List Text}
    (h : fs.Follows depth u xs v) (h' : fs.Follows depth v ys w) :
    fs.Follows depth u (xs ++ ys) w where
  unfolds more := by rw [List.append_assoc, h.unfolds, h'.unfolds]
  remembers := h'.remembers
  pending t ht := h.pending t (h'.pending t ht)

theorem follows_of_telling_eq_nil {fs : FileSystem} {depth : Nat} {u : Unfolding}
    {pieces : List Text} (hremembers : fs.Remembers u.seen) (h : telling pieces = []) :
    fs.Follows depth u pieces u where
  unfolds := unfoldPieces_of_telling_eq_nil h
  remembers := hremembers
  pending _ ht := ht

/-- What is followed in the same way leads to the same path. -/
theorem Follows.congr {fs : FileSystem} {depth : Nat} {u v : Unfolding} {pieces others : List Text}
    (h : fs.Follows depth u others v)
    (hsame : ∀ enter u more, fs.unfoldPieces enter u (pieces ++ more)
      = fs.unfoldPieces enter u (others ++ more)) : fs.Follows depth u pieces v where
  unfolds more := (hsame _ _ more).trans (h.unfolds more)
  remembers := h.remembers
  pending := h.pending

/-- A target is followed from the directory of its link, or from the root. -/
theorem unfold_of_follows {fs : FileSystem} {depth : Nat} {route : Route}
    {seen : List (Text × Option Path)} {bytes : Bytes} {v : Unfolding}
    (h : fs.Follows depth ⟨(route.towards bytes).path, seen, true⟩
      (Text.split '/' (Utf8.decode bytes)) v) :
    fs.unfold (depth + 1) ⟨route.path, seen, true⟩ (Utf8.decode bytes) = .ok v := by
  have hhead : (Utf8.decode bytes).head? = some (CodePoint.ofChar '/')
      ↔ (Route.ofBytes bytes).absolute = true := by
    rw [Route.ofBytes, beq_iff_eq]
    exact Utf8.head?_decode_eq_some_iff (by decide : Route.slash.toNat < 0x80) bytes
  have hend := h.unfolds []
  rw [Route.path_towards, List.append_nil] at hend
  unfold FileSystem.unfold
  simp only [hhead]
  exact hend

section
variable {fs : FileSystem} (hfs : fs.Sound) (hwhole : fs.Whole) (hplaced : fs.Placed)
include hfs hwhole

/-- A name that stands for no link becomes the last part of the path. -/
theorem follows_name {d : Inode} {name : Bytes} {route : Route} {seen : List (Text × Option Path)}
    (hstands : fs.Stands route d) (hremembers : fs.Remembers seen)
    (hd : fs.kind? d = some .directory) (hpiece : Route.IsPiece name) (hself : name ≠ Route.self)
    (hup : name ≠ Route.up) (hlink : ∀ j, fs.Holds d name j → fs.kind? j ≠ some .link)
    (hroom : route.width + name.length + 1 ≤ Route.lengthLimit + 1) (depth : Nat) :
    fs.Follows depth ⟨route.path, seen, true⟩ [Utf8.decode name]
      ⟨(route.child name).path, seen, true⟩ := by
  have hwidth := Route.width_child route hself
  have hends := hstands.endsAt hd hpiece hself hup (by omega)
  have htarget := hends.linkTarget?_of_other hfs hwhole hlink
  have htelling : Utf8.decode name ≠ [] ∧ Utf8.decode name ≠ Text.dot :=
    ⟨fun h => hpiece.ne_nil (Utf8.decode_eq_nil_iff.mp h),
      fun h => hself (Utf8.decode_eq_dot_iff.mp h)⟩
  have hdots : Utf8.decode name ≠ Text.dotdot := fun h => hup (Utf8.decode_eq_dotdot_iff.mp h)
  refine ⟨fun more => ?_, hremembers, fun t ht => ht⟩
  rw [List.singleton_append, unfoldPieces_of_other htelling hdots htarget, Route.path_child]

/-- A link is followed to the end of its target, if that can be followed. -/
theorem exists_follows_link {d j i : Inode} {name target : Bytes} {links added : Nat}
    (hholds : fs.Holds d name j) (hj : fs.node? j = some (.link target))
    (htarget : Passage fs (targetStart d target) (Route.ofBytes target).steps links added i)
    {depth : Nat} {route : Route} {seen : List (Text × Option Path)}
    (hstands : fs.Stands route d) (hremembers : fs.Remembers seen)
    (hpending : fs.Pending (links + 1) seen)
    (hroom : route.width + name.length + target.length + added + 2 ≤ Route.lengthLimit + 1)
    (hinner : ∀ seen, fs.Remembers seen → fs.Pending links seen →
      ∃ route' seen', fs.Follows depth ⟨(route.towards target).path, seen, true⟩
          (Text.split '/' (Utf8.decode target)) ⟨route'.path, seen', true⟩ ∧
        fs.Stands route' i ∧ route'.width ≤ route.width + target.length + 1 + added) :
    ∃ route' seen', fs.Follows (depth + 1) ⟨route.path, seen, true⟩ [Utf8.decode name]
        ⟨route'.path, seen', true⟩ ∧
      fs.Stands route' i ∧
      route'.width ≤ route.width + name.length + target.length + added + 2 := by
  have hname := hholds.legal hfs
  have hpiece : Utf8.decode name ≠ [] ∧ Utf8.decode name ≠ Text.dot :=
    ⟨fun h => hname.ne_nil (Utf8.decode_eq_nil_iff.mp h),
      fun h => hname.ne_self (Utf8.decode_eq_dot_iff.mp h)⟩
  have hup : Utf8.decode name ≠ Text.dotdot :=
    fun h => hname.ne_up (Utf8.decode_eq_dotdot_iff.mp h)
  have hwidth := Route.width_child route hname.ne_self
  have hends := hstands.endsAt hholds.kind (Route.isPiece_of_legalName hname)
    hname.ne_self hname.ne_up (by omega)
  have hlink := hends.linkTarget?_of_link hfs hholds hj
  have hreplaces : fs.Replaces (route.path.child (Utf8.decode name)).text links
      (route.width + name.length + target.length + added + 2) i := by
    have hlength := Route.length_bytes (List.append_ne_nil_of_right_ne_nil _ (List.cons_ne_nil name []))
      (hstands.self_not_mem_child hname.ne_self)
    refine ⟨(route.child name).bytes, d, name, j, target, added, ?_,
      hends.find_of_holds hfs hholds hj (Or.inl rfl), hholds, hj, htarget, by omega⟩
    rw [← Route.path_child, Route.text_path (by simp [Route.child])]
    exact Utf8.encode_decode _
  cases hseen : seen.lookup (route.path.child (Utf8.decode name)).text with
  | none =>
    obtain ⟨route', seen', hfollows, hstands', hle⟩ :=
      hinner _ (hremembers.cons_none _) ((hpending.mono (Nat.le_succ links) fun t ht => ht).cons_none
        hreplaces (Nat.le_refl links))
    have henter := unfold_of_follows hfollows
    refine ⟨route', ((route.path.child (Utf8.decode name)).text, some route'.path) :: seen',
      ⟨fun more => ?_, hfollows.remembers.cons hstands' hreplaces (by omega), ?_⟩, hstands', by omega⟩
    · have hfinished : (⟨route'.path, seen', true⟩ : Unfolding).finished = true := rfl
      exact unfoldPieces_of_new hpiece hup hlink hseen henter hfinished
    · intro t ht
      rw [List.lookup_cons] at ht
      split at ht
      · cases ht
      · next hne =>
        have hbefore := hfollows.pending t ht
        rwa [List.lookup_cons, hne] at hbefore
  | some result =>
    cases result with
    | none =>
      -- the link would be met again on the way to the end of its own target
      obtain ⟨more, room, i', hother, hmore⟩ := hpending _ hseen
      obtain ⟨rfl, -⟩ := hreplaces.unique hfs hwhole hother
      exact absurd hmore (Nat.not_succ_le_self _)
    | some path =>
      obtain ⟨route', links', room, i', rfl, hstands', hother, hle⟩ := hremembers _ _ hseen
      obtain ⟨rfl, rfl, rfl⟩ := hreplaces.unique hfs hwhole hother
      refine ⟨route', seen, ⟨fun more => ?_, hremembers, fun t ht => ht⟩, hstands', hle⟩
      exact unfoldPieces_of_seen hpiece hup hlink hseen

include hplaced in
/-- Where segments have a passage, their pieces are followed to the same node. -/
theorem exists_follows {d e : Inode} {segments : List Bytes} {links added : Nat}
    (h : Passage fs d segments links added e) {depth : Nat} (hdepth : links ≤ depth) {route : Route}
    {seen : List (Text × Option Path)} {pieces : List Text} (hstands : fs.Stands route d)
    (hremembers : fs.Remembers seen) (hpending : fs.Pending links seen)
    (hpieces : telling pieces = (segments.filter (· != Route.self)).map Utf8.decode)
    (hroom : route.width + Route.weight segments + added ≤ Route.lengthLimit + 1) :
    ∃ route' seen', fs.Follows depth ⟨route.path, seen, true⟩ pieces ⟨route'.path, seen', true⟩ ∧
      fs.Stands route' e ∧ route'.width ≤ route.width + Route.weight segments + added := by
  -- along the passage: a link first leads to the end of its target, from one depth less
  induction h generalizing depth route seen pieces with
  | done =>
    exact ⟨route, seen, follows_of_telling_eq_nil hremembers hpieces, hstands, Nat.le_add_right _ _⟩
  | self hd h ih => exact ih hdepth hstands hremembers hpending hpieces hroom
  | @up d above e entries rest links added hd h ih =>
    rw [Route.weight_cons (by decide)] at hroom ⊢
    obtain ⟨-, others, hothers, hnext⟩ := exists_piece hpieces
    obtain ⟨higher, hhigher, hstands', hwidth⟩ := hstands.above hfs hplaced hd
    have hlength : Route.up.length = 2 := rfl
    obtain ⟨route', seen', hfollows, harrives, hle⟩ :=
      ih hdepth hstands' hremembers hpending hothers (by omega)
    have hstep : fs.Follows depth ⟨route.path, seen, true⟩ [Utf8.decode Route.up]
        ⟨higher.path, seen, true⟩ := by
      refine ⟨fun more => ?_, hremembers, fun t ht => ht⟩
      rw [Utf8.decode_up, List.singleton_append, unfoldPieces_of_dotdot, ← hhigher]
    exact ⟨route', seen', (hstep.append hfollows).congr hnext, harrives, by omega⟩
  | @entry d i e name rest links added hholds hkind h ih =>
    have hname := hholds.legal hfs
    have hwidth := Route.width_child route hname.ne_self
    rw [Route.weight_cons hname.ne_self] at hroom ⊢
    rw [List.filter_cons_of_pos (by simpa using hname.ne_self)] at hpieces
    obtain ⟨-, others, hothers, hnext⟩ := exists_piece hpieces
    have hstep := follows_name hfs hwhole hstands hremembers hholds.kind
      (Route.isPiece_of_legalName hname) hname.ne_self hname.ne_up
      (fun j hj => hholds.eq hfs hj ▸ hkind) (by omega) depth
    obtain ⟨route', seen', hfollows, harrives, hle⟩ :=
      ih hdepth (hstands.child hfs hholds hkind) hremembers hpending hothers (by omega)
    exact ⟨route', seen', (hstep.append hfollows).congr hnext, harrives, by omega⟩
  | @link d j i e name target rest l₁ l₂ a₁ a₂ hholds hj htarget hrest ihtarget ihrest =>
    have hname := hholds.legal hfs
    rw [Route.weight_cons hname.ne_self] at hroom ⊢
    rw [List.filter_cons_of_pos (by simpa using hname.ne_self)] at hpieces
    obtain ⟨-, others, hothers, hnext⟩ := exists_piece hpieces
    obtain ⟨depth, rfl⟩ : ∃ n, depth = n + 1 := ⟨depth - 1, by omega⟩
    have hstart := Route.width_towards_le route target
    obtain ⟨route₁, seen₁, hfollows₁, hstands₁, hle₁⟩ :=
      exists_follows_link hfs hwhole hholds hj htarget hstands hremembers
        (hpending.mono (show l₁ + 1 ≤ l₁ + l₂ + 1 by omega) fun t ht => ht) (by omega)
        fun seen hremembers hpending => by
          obtain ⟨route', seen', hfollows, harrives, hle⟩ :=
            ihtarget (show l₁ ≤ depth by omega) (hstands.towards target) hremembers hpending (telling_split target)
              (by omega)
          exact ⟨route', seen', hfollows, harrives, by omega⟩
    obtain ⟨route', seen', hfollows, harrives, hle⟩ :=
      ihrest (show l₂ ≤ depth + 1 by omega) hstands₁ hfollows₁.remembers
        (hpending.mono (show l₂ ≤ l₁ + l₂ + 1 by omega) hfollows₁.pending) hothers (by omega)
    exact ⟨route', seen', (hfollows₁.append hfollows).congr hnext, harrives, by omega⟩

end

/-! ## Real paths -/

/-- A path is the text of its bytes, and it stays short enough when its links are replaced by their
targets. -/
def Roomy (fs : FileSystem) (path : Text) : Prop :=
  ∃ bytes, path = Utf8.decode bytes ∧
    bytes.length + fs.expansion linkLimit (fs.start (Route.ofBytes bytes)) (Route.ofBytes bytes).steps
      ≤ Route.lengthLimit

section
variable {fs : FileSystem} (hfs : fs.Sound) (hwhole : fs.Whole) (hplaced : fs.Placed) {p : Path}
include hfs hwhole hplaced

/-- The first segments of a path are followed to where they lead. -/
theorem exists_follows_start {bytes : Bytes} {xs ys : List Bytes} {d : Inode}
    (hsteps : (Route.ofBytes bytes).steps = xs ++ ys)
    (hroom : bytes.length + fs.expansion linkLimit (fs.start (Route.ofBytes bytes)) (xs ++ ys)
      ≤ Route.lengthLimit)
    (hxs : fs.locateFrom true linkLimit (fs.start (Route.ofBytes bytes)) xs = .ok (.node d))
    {pieces : List Text}
    (hpieces : telling pieces = (xs.filter (· != Route.self)).map Utf8.decode) :
    ∃ route seen, fs.Follows (unfoldDepth - 1) ⟨(Route.towards ⟨false, [], false⟩ bytes).path, [], true⟩ pieces
        ⟨route.path, seen, true⟩ ∧
      fs.Stands route d ∧ route.width + Route.weight ys ≤ Route.lengthLimit + 1 := by
  obtain ⟨links, added, hlinks, hpassage⟩ := exists_passage hfs hxs
  have hadded := hpassage.expansion_append hfs hlinks ys
  have hwidth := Route.width_towards_le ⟨false, [], false⟩ bytes
  have hweight := Route.weight_append xs ys
  have hempty : Route.width ⟨false, [], false⟩ = 0 := rfl
  have hdepth : links ≤ unfoldDepth - 1 := Nat.le_trans hlinks (by decide)
  rw [hsteps] at hwidth
  have hremembers : fs.Remembers [] := fun t path h => by cases h
  have hpending : fs.Pending links [] := fun t h => by cases h
  obtain ⟨route, seen, hfollows, hstands, hle⟩ :=
    exists_follows hfs hwhole hplaced hpassage hdepth ((Stands.start fs false).towards bytes)
      hremembers hpending hpieces (by omega)
  exact ⟨route, seen, hfollows, hstands, by omega⟩

omit hfs hwhole hplaced in
theorem canonical_of_follows {bytes : Bytes} (htext : p.text = Utf8.decode bytes) {v : Unfolding}
    (h : fs.Follows (unfoldDepth - 1) ⟨(Route.towards ⟨false, [], false⟩ bytes).path, [], true⟩
      (Text.split '/' p.text) v) : fs.canonical p = .ok (fs.absolute v.path) := by
  rw [htext] at h
  have hunfold : fs.unfold unfoldDepth ⟨⟨.here, []⟩, [], true⟩ (Utf8.decode bytes) = .ok v :=
    unfold_of_follows h
  unfold canonical
  rw [htext, hunfold]
  rfl

/-- What is left of a path when its links are replaced is the real path of what it leads to. -/
theorem canonical_of_stat (hroomy : fs.Roomy p.text) {i : Inode} (h : fs.stat p.text = .ok i) :
    ∃ names, fs.canonical p = .ok (realPath names) ∧ fs.Descends rootInode names i := by
  obtain ⟨bytes, htext, hroom⟩ := hroomy
  obtain ⟨route, hroute, hfollow⟩ := stat_eq_ok_iff.mp h
  obtain ⟨bytes', hbytes', -, -, -, rfl⟩ := Route.ofText_eq_ok_iff.mp hroute
  rw [htext, Utf8.encode_decode] at hbytes'
  cases hbytes'
  rw [← List.append_nil (Route.ofBytes bytes).steps] at hroom
  have hpieces := telling_split bytes
  rw [← htext] at hpieces
  obtain ⟨route, seen, hfollows, hstands, -⟩ :=
    exists_follows_start hfs hwhole hplaced (List.append_nil _).symm hroom hfollow hpieces
  obtain ⟨names, habsolute, hnames⟩ :=
    exists_absolute hfs hplaced hstands.self_not_mem hstands.arrives
  exact ⟨names, by rw [canonical_of_follows htext hfollows, habsolute], hnames⟩

/-- The same for a path that ends in a name of a directory, whatever the name stands for, if it is no
link. -/
theorem canonical_of_endsAt (hroomy : fs.Roomy p.text) {d : Inode} {name : Bytes}
    (h : fs.EndsAt p.text d name) (hlink : ∀ j, fs.Holds d name j → fs.kind? j ≠ some .link) :
    ∃ names, fs.canonical p = .ok (realPath (names ++ [name])) ∧
      fs.Descends rootInode names d := by
  obtain ⟨bytes, htext, hroom⟩ := hroomy
  obtain ⟨route, before, hroute, hsegments, hslashed, hbefore⟩ := h.route
  have hpiece : Route.IsPiece name := Route.isPiece_of_ofText hroute (Or.inl (by simp [hsegments]))
  obtain ⟨bytes', hbytes', -, -, -, rfl⟩ := Route.ofText_eq_ok_iff.mp hroute
  rw [htext, Utf8.encode_decode] at hbytes'
  cases hbytes'
  have hsteps : (Route.ofBytes bytes).steps = before ++ [name] := by
    rw [Route.steps, hsegments, hslashed]
    exact List.append_nil _
  rw [hsteps] at hroom
  -- the pieces before the name are followed first
  have hpieces := telling_split bytes
  rw [hsteps, List.filter_append, List.map_append, ← htext] at hpieces
  obtain ⟨xs, ys, hxy, hxs, hys⟩ := List.filter_eq_append_iff.mp hpieces
  rw [List.filter_cons_of_pos (by simpa using h.ne_self)] at hys
  obtain ⟨route, seen, hfollows, hstands, hwidth⟩ :=
    exists_follows_start hfs hwhole hplaced hsteps hroom hbefore hxs
  obtain ⟨-, rest, hrest, hnext⟩ := exists_piece hys
  have hweight := Route.weight_cons h.ne_self []
  have hname := follows_name hfs hwhole hstands hfollows.remembers h.kind hpiece h.ne_self h.ne_up
    hlink (by omega) (unfoldDepth - 1)
  have hend := (hname.append (follows_of_telling_eq_nil hfollows.remembers hrest)).congr hnext
  have hall : fs.Follows (unfoldDepth - 1) _ (Text.split '/' p.text) _ := hxy ▸ hfollows.append hend
  obtain ⟨names, habsolute, hnames⟩ :=
    exists_absolute hfs hplaced hstands.self_not_mem hstands.arrives
  refine ⟨names, ?_, hnames⟩
  have hdots : Utf8.decode name ≠ Text.dotdot :=
    fun heq => h.ne_up (Utf8.decode_eq_dotdot_iff.mp heq)
  rw [canonical_of_follows htext hall, Route.path_child, absolute_child fs _ hdots, habsolute]
  simp [realPath, Path.child]

end

/-! ## Circles -/

theorem text_realPath {names : List Bytes} (h : names ≠ []) :
    (realPath names).text = Utf8.decode (Route.bytes ⟨true, names, false⟩) :=
  @Route.text_path ⟨true, names, false⟩ h

theorem askable_realPath {names : List Bytes} (hpieces : ∀ name ∈ names, Route.IsPiece name) :
    (realPath names).text.Askable := by
  by_cases hnil : names = []
  · subst hnil
    exact ⟨[Route.slash], rfl, by decide⟩
  · rw [text_realPath hnil]
    exact ⟨_, Utf8.encode_decode _, @Route.zero_not_mem_bytes ⟨true, names, false⟩ hnil hpieces⟩

/-- A real path that ends with no link is looked up without following any. -/
theorem stat_realPath_ne {fs : FileSystem} {names : List Bytes}
    (hpieces : ∀ name ∈ names, Route.IsPiece name)
    (hlink : ∀ d target rest, fs.advance true rootInode names ≠ .ok (.link d target rest)) :
    fs.stat (realPath names).text ≠ .error (.fault .tooManyLinks) := by
  intro h
  cases hroute : Route.ofText (realPath names).text with
  | error e =>
    rw [stat_of_refused hroute] at h
    cases h
    -- a text that is no path is refused for other reasons
    unfold Route.ofText at hroute
    (repeat' split at hroute) <;> cases hroute
  | ok route =>
    obtain ⟨bytes, hbytes, -, -, -, rfl⟩ := Route.ofText_eq_ok_iff.mp hroute
    have hend : (Route.ofBytes bytes).absolute = true ∧
        ∀ d target rest, fs.advance true rootInode (Route.ofBytes bytes).steps
          ≠ .ok (.link d target rest) := by
      by_cases hnil : names = []
      · subst hnil
        cases hbytes
        refine ⟨rfl, fun d target rest => ?_⟩
        show fs.advance true rootInode [Route.self] ≠ _
        simp only [advance, if_true]
        split <;> simp
      · have hsame := @Route.ofBytes_bytes ⟨true, names, false⟩ hnil hpieces
        rw [text_realPath hnil, Utf8.encode_decode] at hbytes
        cases hbytes
        rw [hsame]
        refine ⟨rfl, fun d target rest => ?_⟩
        show fs.advance true rootInode (names ++ []) ≠ _
        rw [List.append_nil]
        exact hlink d target rest
    rw [stat_of_route hroute, follow_eq, start, if_pos hend.1] at h
    cases hadvance : fs.advance true rootInode (Route.ofBytes bytes).steps with
    | error fault =>
      rw [locateFrom_of_error hadvance] at h
      cases h
      simpa using fault_of_advance hadvance
    | ok arrival =>
      cases arrival with
      | node i =>
        rw [locateFrom_of_node hadvance] at h
        cases h
      | vacancy d name =>
        rw [locateFrom_of_vacancy hadvance] at h
        cases h
      | link d target rest => exact hend.2 d target rest hadvance

/-- A path whose links can all be replaced runs in no circle. -/
theorem resolved_of_canonical {fs : FileSystem} {p : Path} {names : List Bytes}
    (h : fs.canonical p = .ok (realPath names)) (hpieces : ∀ name ∈ names, Route.IsPiece name)
    (hlink : ∀ d target rest, fs.advance true rootInode names ≠ .ok (.link d target rest)) :
    fs.resolved p = .path (realPath names) := by
  have hnot := stat_realPath_ne hpieces hlink
  unfold resolved
  simp only [h]
  cases hstat : fs.stat (realPath names).text with
  | ok i => rfl
  | error e =>
    obtain ⟨fault, rfl⟩ := (stat_error_iff_askable hstat).mpr (askable_realPath hpieces)
    rw [hstat] at hnot
    split
    · next heq =>
      cases heq
      exact absurd rfl hnot
    · next heq => cases heq
    · next heq => cases heq
    · rfl

/-- A name that stands for no link is looked up without stopping at one. -/
theorem advance_name_ne_link {fs : FileSystem} (hfs : fs.Sound) {d : Inode} {name : Bytes}
    (hkind : fs.kind? d = some .directory) (hself : name ≠ Route.self) (hup : name ≠ Route.up)
    (hlink : ∀ j, fs.Holds d name j → fs.kind? j ≠ some .link) (e : Inode) (target : Bytes)
    (rest : List Bytes) : fs.advance true d [name] ≠ .ok (.link e target rest) := by
  intro h
  obtain ⟨above, entries, hd⟩ := node?_of_kind? hkind
  by_cases hlength : Route.nameLimit < name.length
  · simp only [advance, hd, if_neg hself, if_neg hup, if_pos hlength] at h
    cases h
  · cases hlookup : entries.lookup name with
    | none =>
      rw [advance_of_free hd hself hup hlength hlookup, if_pos rfl] at h
      cases h
    | some j =>
      have hholds := holds_of_lookup hd hlookup
      rw [hholds.advance hfs (hlink j hholds)] at h
      cases h

section
variable {fs : FileSystem} (hfs : fs.Sound) (hwhole : fs.Whole) (hplaced : fs.Placed) {p : Path}
  (hroomy : fs.Roomy p.text)
include hfs hwhole hplaced hroomy

/-- What a path leads to is resolved to its real path. -/
theorem resolved_of_stat {i : Inode} (h : fs.stat p.text = .ok i) :
    ∃ names, fs.resolved p = .path (realPath names) ∧ fs.Descends rootInode names i := by
  obtain ⟨names, hcanonical, hnames⟩ := canonical_of_stat hfs hwhole hplaced hroomy h
  have hpieces (name : Bytes) (hname : name ∈ names) : Route.IsPiece name :=
    Route.isPiece_of_legalName (hnames.legal hfs name hname)
  refine ⟨names, resolved_of_canonical hcanonical hpieces ?_, hnames⟩
  intro d target rest hlink
  cases hnames.2.symm.trans hlink

/-- The same for a path that ends in a name of a directory, whatever the name stands for, if it is no
link. -/
theorem resolved_of_endsAt {d : Inode} {name : Bytes} (h : fs.EndsAt p.text d name)
    (hlink : ∀ j, fs.Holds d name j → fs.kind? j ≠ some .link) :
    ∃ names, fs.resolved p = .path (realPath (names ++ [name])) ∧
      fs.Descends rootInode names d := by
  obtain ⟨names, hcanonical, hnames⟩ := canonical_of_endsAt hfs hwhole hplaced hroomy h hlink
  obtain ⟨route, before, hroute, hsegments, -⟩ := h.route
  have hpieces (other : Bytes) (hother : other ∈ names ++ [name]) : Route.IsPiece other := by
    rcases List.mem_append.mp hother with hother | hother
    · exact Route.isPiece_of_legalName (hnames.legal hfs other hother)
    · rw [List.mem_singleton.mp hother]
      exact Route.isPiece_of_ofText hroute (Or.inl (by simp [hsegments]))
  refine ⟨names, resolved_of_canonical hcanonical hpieces fun e target rest => ?_, hnames⟩
  rw [advance_append_of_node hnames.2]
  exact advance_name_ne_link hfs h.kind h.ne_self h.ne_up hlink e target rest

end

end BundleManifest.FileSystem
