/-
# BundleManifest.Proofs.FileSystem.Leads — where entries lead, however many links there are

An entry of a directory `Leads` to a node when following links from it comes to an end there. The
limits of the operating system play no part: neither on the number of links nor on the length of
paths. Wherever the path of an entry leads, the entry leads as well (`leads_of_stat`), so there is at
most one such place, and it does not depend on the path under which the directory is asked for. An
entry that is no link leads to itself (`Holds.leads`).
-/
import BundleManifest.Proofs.FileSystem.Tree

namespace BundleManifest.FileSystem

open Walk (entryPath)

/-- What is found with some links is found with more. -/
theorem locateFrom_of_le {fs : FileSystem} {few many : Nat} {current i : Inode} {xs : List Bytes}
    (hle : few ≤ many) (h : fs.locateFrom true few current xs = .ok (.node i)) :
    fs.locateFrom true many current xs = .ok (.node i) := by
  cases hadvance : fs.advance true current xs with
  | error fault =>
    rw [locateFrom_of_error hadvance] at h
    cases h
  | ok arrival =>
    cases arrival with
    | node j =>
      rw [locateFrom_of_node hadvance] at h ⊢
      exact h
    | vacancy d name =>
      rw [locateFrom_of_vacancy hadvance] at h
      cases h
    | link d target rest =>
      rw [locateFrom_of_link hadvance] at h ⊢
      cases few with
      | zero => cases h
      | succ few =>
        -- one link less on both sides
        cases many with
        | zero => exact absurd hle (Nat.not_succ_le_zero few)
        | succ many => exact locateFrom_of_le (Nat.le_of_succ_le_succ hle) h

/-- An entry of a directory leads to a node when links are followed without a limit. -/
def Leads (fs : FileSystem) (d : Inode) (name : Bytes) (i : Inode) : Prop :=
  (∃ c, fs.Holds d name c) ∧ ∃ links, fs.locateFrom true links d [name] = .ok (.node i)

/-- An entry leads to one node at most. -/
theorem Leads.eq {fs : FileSystem} {d i j : Inode} {name : Bytes} (hi : fs.Leads d name i)
    (hj : fs.Leads d name j) : i = j := by
  obtain ⟨-, few, hi⟩ := hi
  obtain ⟨-, many, hj⟩ := hj
  have hi' := locateFrom_of_le (Nat.le_max_left few many) hi
  have hj' := locateFrom_of_le (Nat.le_max_right few many) hj
  rw [hi'] at hj'
  cases hj'
  rfl

theorem Leads.legal {fs : FileSystem} (hfs : fs.Sound) {d i : Inode} {name : Bytes}
    (h : fs.Leads d name i) : LegalName name := by
  obtain ⟨⟨c, hc⟩, -⟩ := h
  exact hc.legal hfs

/-- An entry that is no link leads to itself. -/
theorem Holds.leads {fs : FileSystem} (hfs : fs.Sound) {d c : Inode} {name : Bytes}
    (h : fs.Holds d name c) (hlink : fs.kind? c ≠ some .link) : fs.Leads d name c := by
  have hname : fs.advance true d [name] = .ok (.node c) := by
    rw [h.advance hfs hlink]
    rfl
  exact ⟨⟨c, h⟩, 0, locateFrom_of_node hname 0⟩

theorem Holds.eq_of_leads {fs : FileSystem} (hfs : fs.Sound) {d c i : Inode} {name : Bytes}
    (h : fs.Holds d name c) (hlink : fs.kind? c ≠ some .link) (hi : fs.Leads d name i) : i = c :=
  hi.eq (h.leads hfs hlink)

/-- What is looked up on the path of an entry: what is looked up on the path of its directory, and
then its name. -/
theorem exists_start_of_stat {fs : FileSystem} {path : Text} {d : Inode}
    (h : fs.stat path = .ok d) :
    ∃ start xs, fs.locateFrom true linkLimit start xs = .ok (.node d) ∧
      ∀ name, LegalName name → ∀ i, fs.stat (entryPath path (Utf8.decode name)) = .ok i →
        fs.locateFrom true linkLimit start (xs ++ [name]) = .ok (.node i) := by
  obtain ⟨route, hroute, hfollow⟩ := stat_eq_ok_iff.mp h
  obtain ⟨bytes, hbytes, hzero, hne, -, rfl⟩ := Route.ofText_eq_ok_iff.mp hroute
  refine ⟨if (Route.ofBytes bytes).absolute then rootInode else fs.here,
    (Route.ofBytes bytes).segments, ?_, ?_⟩
  · unfold follow Route.steps at hfollow
    -- the steps of a slashed path end in a point
    cases hslashed : (Route.ofBytes bytes).slashed with
    | true =>
      rw [hslashed] at hfollow
      exact locateFrom_append_self hfollow
    | false =>
      rw [hslashed] at hfollow
      simpa using hfollow
  · intro name hname i hi
    obtain ⟨route, hroute, hfollow⟩ := stat_eq_ok_iff.mp hi
    obtain ⟨longer, hlonger, -, -, -, rfl⟩ := Route.ofText_eq_ok_iff.mp hroute
    obtain ⟨front, hfront, hencode⟩ := @Walk.encode_entryPath _ _ name hbytes
    obtain ⟨habsolute, hsteps⟩ :=
      Route.ofBytes_entry hne hfront hname.ne_nil hname.slash_not_mem
    rw [hencode] at hlonger
    cases hlonger
    unfold follow at hfollow
    rw [habsolute, hsteps] at hfollow
    exact hfollow

/-- Where the path of an entry leads, the entry leads. -/
theorem leads_of_stat {fs : FileSystem} {path : Text} {d c i : Inode} {name : Bytes}
    (hpath : fs.stat path = .ok d) (hname : LegalName name) (hc : fs.Holds d name c)
    (h : fs.stat (entryPath path (Utf8.decode name)) = .ok i) : fs.Leads d name i := by
  obtain ⟨start, xs, hstart, hentry⟩ := exists_start_of_stat hpath
  have hlonger := hentry name hname i h
  rcases locateFrom_append fs true linkLimit start xs (List.cons_ne_nil name []) with
    ⟨e, k, hxs, happend⟩ | ⟨-, fault, hfault⟩
  · rw [hstart] at hxs
    cases hxs
    rw [happend] at hlonger
    exact ⟨⟨c, hc⟩, k, hlonger⟩
  · rw [hfault] at hlonger
    cases hlonger

end BundleManifest.FileSystem
