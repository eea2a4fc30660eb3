/-
# BundleManifest.Proofs.FileSystem.Passage — links followed one inside the other

Looking up a path puts the target of a link in front of the segments that are left, and counts links
down. A `Passage` tells the same as a tree: first the target is followed to its end, and then the rest.
It counts the links that are followed and the bytes that their targets add. What is looked up has a
passage (`exists_passage`), and there is only one (`Passage.unique`).
-/
import BundleManifest.Proofs.FileSystem.Publication

namespace BundleManifest.FileSystem

/-- Where the target of a link in a directory starts. -/
def targetStart (d : Inode) (target : Bytes) : Inode :=
  if (Route.ofBytes target).absolute then rootInode else d

/-- Segments lead from one node to another: so many links are followed on the way, and so many bytes
are in their targets, with one more for each link. -/
inductive Passage (fs : FileSystem) : Inode → List Bytes → Nat → Nat → Inode → Prop
  | done {d : Inode} : Passage fs d [] 0 0 d
  | self {d e : Inode} {rest : List Bytes} {links added : Nat}
      (hd : fs.kind? d = some .directory) (h : Passage fs d rest links added e) :
      Passage fs d (Route.self :: rest) links added e
  | up {d above e : Inode} {entries : List (Bytes × Inode)} {rest : List Bytes} {links added : Nat}
      (hd : fs.node? d = some (.directory above entries)) (h : Passage fs above rest links added e) :
      Passage fs d (Route.up :: rest) links added e
  | entry {d i e : Inode} {name : Bytes} {rest : List Bytes} {links added : Nat}
      (hholds : fs.Holds d name i) (hi : fs.kind? i ≠ some .link)
      (h : Passage fs i rest links added e) : Passage fs d (name :: rest) links added e
  | link {d j i e : Inode} {name target : Bytes} {rest : List Bytes}
      {links₁ links₂ added₁ added₂ : Nat} (hholds : fs.Holds d name j)
      (hj : fs.node? j = some (.link target))
      (htarget : Passage fs (targetStart d target) (Route.ofBytes target).steps links₁ added₁ i)
      (hrest : Passage fs i rest links₂ added₂ e) :
      Passage fs d (name :: rest) (links₁ + links₂ + 1) (target.length + 1 + added₁ + added₂) e

namespace Passage

variable {fs : FileSystem} (hfs : fs.Sound) {d e : Inode} {segments : List Bytes}
  {links added : Nat}

/-- A passage through some segments and others comes to where the first ones lead. -/
theorem split {xs ys : List Bytes} (h : Passage fs d (xs ++ ys) links added e) :
    ∃ i links₁ links₂ added₁ added₂, Passage fs d xs links₁ added₁ i ∧
      Passage fs i ys links₂ added₂ e ∧ links = links₁ + links₂ ∧ added = added₁ + added₂ := by
  induction xs generalizing d links added with
  | nil => exact ⟨d, 0, links, 0, added, .done, h, by omega, by omega⟩
  | cons x xs ih =>
    rw [List.cons_append] at h
    cases h with
    | self hd h =>
      obtain ⟨i, l₁, l₂, a₁, a₂, hxs, hys, rfl, rfl⟩ := ih h
      exact ⟨i, l₁, l₂, a₁, a₂, .self hd hxs, hys, rfl, rfl⟩
    | up hd h =>
      obtain ⟨i, l₁, l₂, a₁, a₂, hxs, hys, rfl, rfl⟩ := ih h
      exact ⟨i, l₁, l₂, a₁, a₂, .up hd hxs, hys, rfl, rfl⟩
    | entry hholds hi h =>
      obtain ⟨i, l₁, l₂, a₁, a₂, hxs, hys, rfl, rfl⟩ := ih h
      exact ⟨i, l₁, l₂, a₁, a₂, .entry hholds hi hxs, hys, rfl, rfl⟩
    | link hholds hj htarget hrest =>
      obtain ⟨i, l₁, l₂, a₁, a₂, hxs, hys, rfl, rfl⟩ := ih hrest
      exact ⟨i, _, l₂, _, a₂, .link hholds hj htarget hxs, hys, by omega, by omega⟩

section
include hfs

theorem not_self {i : Inode} (h : fs.Holds d Route.self i) : False := (h.legal hfs).ne_self rfl

theorem not_up {i : Inode} (h : fs.Holds d Route.up i) : False := (h.legal hfs).ne_up rfl

/-- Segments lead to one node, by way of the same links. -/
theorem unique (h : Passage fs d segments links added e) {links' added' : Nat} {e' : Inode}
    (h' : Passage fs d segments links' added' e') :
    links = links' ∧ added = added' ∧ e = e' := by
  induction h generalizing links' added' e' with
  | done =>
    cases h'
    exact ⟨rfl, rfl, rfl⟩
  | self hd h ih =>
    cases h' with
    | self _ h' => exact ih h'
    | entry hholds => exact (not_self hfs hholds).elim
    | link hholds => exact (not_self hfs hholds).elim
  | up hd h ih =>
    cases h' with
    | up hd' h' =>
      cases hd.symm.trans hd'
      exact ih h'
    | entry hholds => exact (not_up hfs hholds).elim
    | link hholds => exact (not_up hfs hholds).elim
  | entry hholds hi h ih =>
    cases h' with
    | self => exact (not_self hfs hholds).elim
    | up => exact (not_up hfs hholds).elim
    | entry hholds' _ h' =>
      cases hholds.eq hfs hholds'
      exact ih h'
    | link hholds' hj' =>
      cases hholds.eq hfs hholds'
      exact absurd (kind?_of_node? hj') hi
  | link hholds hj htarget hrest ihtarget ihrest =>
    cases h' with
    | self => exact (not_self hfs hholds).elim
    | up => exact (not_up hfs hholds).elim
    | entry hholds' hi' =>
      cases hholds.eq hfs hholds'
      exact absurd (kind?_of_node? hj) hi'
    | link hholds' hj' htarget' hrest' =>
      cases hholds.eq hfs hholds'
      cases hj.symm.trans hj'
      obtain ⟨rfl, rfl, rfl⟩ := ihtarget htarget'
      obtain ⟨rfl, rfl, rfl⟩ := ihrest hrest'
      exact ⟨rfl, rfl, rfl⟩

end

end Passage

/-- Looking up ends alike where it goes on alike. -/
theorem locateFrom_of_advance {fs : FileSystem} {followLast : Bool} {d e : Inode}
    {xs ys : List Bytes} (h : fs.advance followLast d xs = fs.advance followLast e ys)
    (links : Nat) : fs.locateFrom followLast links d xs = fs.locateFrom followLast links e ys := by
  unfold locateFrom
  rw [h]

section
variable {fs : FileSystem} (hfs : fs.Sound)
include hfs

/-- What is found by looking up has a passage, with no more links than may be followed. -/
theorem exists_passage {links : Nat} {d e : Inode} {segments : List Bytes}
    (h : fs.locateFrom true links d segments = .ok (.node e)) :
    ∃ fewer added, fewer ≤ links ∧ Passage fs d segments fewer added e := by
  -- a link is followed with fewer links left, every other segment with fewer segments
  induction links using Nat.strong_induction_on generalizing d segments with
  | _ links ih =>
    induction segments generalizing d with
    | nil =>
      rw [locateFrom_of_node rfl] at h
      cases h
      exact ⟨0, 0, Nat.zero_le _, .done⟩
    | cons segment rest ihrest =>
      have hd := kind?_of_locateFrom (List.cons_ne_nil segment rest) h
      obtain ⟨above, entries, hnode⟩ := node?_of_kind? hd
      by_cases hself : segment = Route.self
      · have hskip : fs.advance true d (segment :: rest) = fs.advance true d rest := by
          simp only [advance, hnode, if_pos hself]
        rw [locateFrom_of_advance hskip] at h
        obtain ⟨fewer, added, hle, hpassage⟩ := ihrest h
        exact ⟨fewer, added, hle, hself ▸ .self hd hpassage⟩
      by_cases hup : segment = Route.up
      · have hskip : fs.advance true d (segment :: rest) = fs.advance true above rest := by
          simp only [advance, hnode, if_neg hself, if_pos hup]
        rw [locateFrom_of_advance hskip] at h
        obtain ⟨fewer, added, hle, hpassage⟩ := ihrest h
        exact ⟨fewer, added, hle, hup ▸ .up hnode hpassage⟩
      by_cases hlength : Route.nameLimit < segment.length
      · have hrefused : fs.advance true d (segment :: rest) = .error .nameTooLong := by
          simp only [advance, hnode, if_neg hself, if_neg hup, if_pos hlength]
        rw [locateFrom_of_error hrefused] at h
        cases h
      cases hlookup : entries.lookup segment with
      | none =>
        have hfree := advance_of_free hnode hself hup hlength hlookup true rest
        by_cases hrest : rest = []
        · rw [if_pos hrest] at hfree
          rw [locateFrom_of_vacancy hfree] at h
          cases h
        · rw [if_neg hrest] at hfree
          rw [locateFrom_of_error hfree] at h
          cases h
      | some i =>
        have hholds := holds_of_lookup hnode hlookup
        by_cases hkind : fs.kind? i = some .link
        · obtain ⟨node, hi, hlink⟩ := Option.map_eq_some_iff.mp hkind
          obtain ⟨target, rfl⟩ := exists_target hlink
          rw [locateFrom_of_link (hholds.advance_link hfs hi rest)] at h
          cases links with
          | zero => cases h
          | succ links =>
            obtain ⟨fewer, added, hle, hpassage⟩ := ih links (Nat.lt_succ_self links) h
            obtain ⟨j, l₁, l₂, a₁, a₂, htarget, hrest, rfl, rfl⟩ := hpassage.split
            exact ⟨_, _, Nat.succ_le_succ hle, .link hholds hi htarget hrest⟩
        · rw [locateFrom_of_advance (hholds.advance hfs hkind true rest)] at h
          obtain ⟨fewer, added, hle, hpassage⟩ := ihrest h
          exact ⟨fewer, added, hle, .entry hholds hkind hpassage⟩

end

/-! ## How long a path gets -/

/-- How many bytes are added to segments when their links are replaced by their targets, as far as
they can be. -/
def expansion (fs : FileSystem) : Nat → Inode → List Bytes → Nat
  | links, current, segments =>
    match fs.advance true current segments with
    | .ok (.link directory target rest) =>
      match links with
      | 0 => 0
      | links + 1 =>
        target.length + 1 +
          expansion fs links (targetStart directory target) ((Route.ofBytes target).steps ++ rest)
    | _ => 0

theorem expansion_of_advance {fs : FileSystem} {d e : Inode} {xs ys : List Bytes}
    (h : fs.advance true d xs = fs.advance true e ys) (links : Nat) :
    fs.expansion links d xs = fs.expansion links e ys := by
  unfold expansion
  rw [h]

/-- Up to where a passage leads there are added as many bytes as it counts. -/
theorem Passage.expansion_append {fs : FileSystem} (hfs : fs.Sound) {d e : Inode}
    {segments : List Bytes} {fewer added : Nat} (h : Passage fs d segments fewer added e)
    {links : Nat} (hle : fewer ≤ links) (more : List Bytes) :
    fs.expansion links d (segments ++ more) = added + fs.expansion (links - fewer) e more := by
  induction h generalizing links more with
  | done => simp
  | @self d e rest fewer added hd h ih =>
    obtain ⟨above, entries, hnode⟩ := node?_of_kind? hd
    have hskip : fs.advance true d (Route.self :: (rest ++ more)) = fs.advance true d (rest ++ more) := by
      simp [advance, hnode]
    rw [List.cons_append, expansion_of_advance hskip]
    exact ih hle more
  | @up d above e entries rest fewer added hd h ih =>
    have hskip : fs.advance true d (Route.up :: (rest ++ more))
        = fs.advance true above (rest ++ more) := by
      simp [advance, hd, Route.up, Route.self]
    rw [List.cons_append, expansion_of_advance hskip]
    exact ih hle more
  | entry hholds hi h ih =>
    rw [List.cons_append, expansion_of_advance (hholds.advance hfs hi true _)]
    exact ih hle more
  | @link d j i e name target rest l₁ l₂ a₁ a₂ hholds hj htarget hrest ihtarget ihrest =>
    obtain ⟨links, rfl⟩ : ∃ n, links = n + 1 := ⟨links - 1, by omega⟩
    have hfirst := ihtarget (show l₁ ≤ links by omega) (rest ++ more)
    have hsecond := ihrest (show l₂ ≤ links - l₁ by omega) more
    rw [List.cons_append]
    conv_lhs => unfold expansion
    rw [hholds.advance_link hfs hj]
    show target.length + 1 + fs.expansion links (targetStart d target)
      ((Route.ofBytes target).steps ++ (rest ++ more)) = _
    rw [hfirst, hsecond, show links + 1 - (l₁ + l₂ + 1) = links - l₁ - l₂ by omega]
    omega

end BundleManifest.FileSystem
