/-
# BundleManifest.Proofs.FileSystem.Asking — which paths can be asked for

A path can be asked for when it has an encoding and holds no zero byte. A path with one more part can
be asked for if the path and the part can (`Path.askable_child`). The other way round, a path is refused
for a zero byte only if one of its parts holds one (`Path.mem_text_iff`), and no part comes into a path
when it is made absolute other than those of the working directory (`mem_parts_absolute`).
-/
import BundleManifest.Proofs.FileSystem.Places
import BundleManifest.Proofs.FileSystem.Standing

namespace BundleManifest

/-! ## Texts -/

/-- An encoding holds a zero byte where the text holds the code point zero. -/
theorem Utf8.zero_mem_encode_iff {t : Text} {bytes : Bytes} (h : encode t = .ok bytes) :
    (0 : UInt8) ∈ bytes ↔ (0 : CodePoint) ∈ t :=
  mem_encode_iff h (by decide)

theorem Text.Askable.zero_not_mem {t : Text} (h : t.Askable) : (0 : CodePoint) ∉ t := by
  obtain ⟨bytes, hbytes, hzero⟩ := h
  exact fun hmem => hzero ((Utf8.zero_mem_encode_iff hbytes).mpr hmem)

theorem Text.Askable.append {t u : Text} (ht : t.Askable) (hu : u.Askable) : (t ++ u).Askable := by
  obtain ⟨first, hfirst, hzero⟩ := ht
  obtain ⟨last, hlast, hzero'⟩ := hu
  exact ⟨first ++ last, Utf8.encode_append_iff.mpr ⟨first, last, hfirst, hlast, rfl⟩,
    by simp [hzero, hzero']⟩

/-! ## Paths -/

namespace Path

/-- A path with one more part can be asked for. -/
theorem askable_child {p : Path} {name : Text} (h : p.text.Askable) (hname : name.Askable) :
    (p.child name).text.Askable := by
  by_cases hparts : p.parts = []
  · obtain ⟨anchor, parts⟩ := p
    obtain rfl : parts = [] := hparts
    have hanchor : anchor.text.Askable := by
      cases anchor with
      | here => exact ⟨[], rfl, by decide⟩
      | root => exact ⟨[Route.slash], rfl, by decide⟩
      | doubleRoot => exact ⟨[Route.slash, Route.slash], rfl, by decide⟩
    rw [text_child_of_nil]
    exact hanchor.append hname
  · have hslash : Text.Askable ("/" : Text) := ⟨[Route.slash], rfl, by decide⟩
    rw [text_child_of_ne_nil hparts, ← List.singleton_append]
    exact h.append (hslash.append hname)

/-- What is written in a path, apart from slashes and points, is written in one of its parts. -/
theorem mem_text_iff {p : Path} {c : CodePoint} (hslash : c ≠ CodePoint.ofChar '/')
    (hdot : c ≠ CodePoint.ofChar '.') : c ∈ p.text ↔ ∃ part ∈ p.parts, c ∈ part := by
  obtain ⟨anchor, parts⟩ := p
  have hanchor : c ∉ anchor.text := by
    cases anchor with
    | here => exact List.not_mem_nil
    | root => simpa [Anchor.text, Text.ofString] using hslash
    | doubleRoot => simpa [Anchor.text, Text.ofString] using hslash
  by_cases hparts : parts = []
  · subst hparts
    have hempty : c ∉ Path.text ⟨anchor, []⟩ := by
      cases anchor with
      | here => simpa [text, Text.dot, Text.ofString] using hdot
      | root => simpa [text, Text.join, glue] using hanchor
      | doubleRoot => simpa [text, Text.join, glue] using hanchor
    simpa using hempty
  · rw [text_of_ne_nil anchor hparts, List.mem_append, Text.join, mem_glue_iff hslash]
    simp [hanchor]

theorem mem_parts_collapse {p : Path} {part : Text} (h : part ∈ p.collapse.parts) :
    part ∈ p.parts := by
  -- each step keeps some of the parts and adds the next one at most
  have hstep (absolute : Bool) (parts : List Text) (next : Text) :
      collapseStep absolute parts next ⊆ parts ++ [next] := by
    unfold collapseStep
    split
    · split
      · split <;> simp
      · split
        · exact List.Subset.refl _
        · exact fun x hx => List.mem_append_left _ (List.mem_of_mem_dropLast hx)
    · exact List.Subset.refl _
  have hfold (parts more : List Text) :
      more.foldl (collapseStep p.isAbsolute) parts ⊆ parts ++ more := by
    induction more generalizing parts with
    | nil => simp
    | cons next more ih =>
      intro x hx
      rcases List.mem_append.mp (ih _ hx) with hx | hx
      · rcases List.mem_append.mp (hstep _ _ _ hx) with hx | hx
        · exact List.mem_append_left _ hx
        · exact List.mem_append_right _ (List.mem_cons.mpr (Or.inl (List.mem_singleton.mp hx)))
      · exact List.mem_append_right _ (List.mem_cons_of_mem _ hx)
  simpa using hfold [] p.parts h

end Path

/-- Making a path absolute adds no parts but those of the working directory. -/
theorem FileSystem.mem_parts_absolute {fs : FileSystem} {p : Path} {part : Text}
    (h : part ∈ (fs.absolute p).parts) : part ∈ fs.herePath.parts ∨ part ∈ p.parts := by
  have hjoined : part ∈ (fs.herePath.join p).parts := Path.mem_parts_collapse h
  unfold Path.join at hjoined
  split at hjoined
  · exact Or.inr hjoined
  · exact List.mem_append.mp hjoined

/-! ## Refusals -/

/-- A path that is refused for a zero byte holds the code point zero. -/
theorem Route.zero_mem_of_ofText {t : Text} (h : ofText t = .error .embeddedNull) :
    (0 : CodePoint) ∈ t := by
  unfold ofText at h
  cases hbytes : Utf8.encode t with
  | error u =>
    rw [hbytes] at h
    cases h
  | ok bytes =>
    simp only [hbytes] at h
    split at h
    · next hzero => exact (Utf8.zero_mem_encode_iff hbytes).mp (by simpa using hzero)
    · split at h
      · cases h
      · split at h <;> cases h

namespace FileSystem

variable {fs : FileSystem}

theorem zero_mem_of_locate {followLast : Bool} {path : Text}
    (h : fs.locate followLast path = .error .embeddedNull) : (0 : CodePoint) ∈ path := by
  rcases Except.bind_eq_error_iff.mp h with hroute | ⟨route, -, hfollow⟩
  · exact Route.zero_mem_of_ofText hroute
  · obtain ⟨_, -, hfault⟩ := Except.mapError_eq_error_iff.mp hfollow
    cases hfault

theorem zero_mem_of_make {path : Text} {node : Inode → Node}
    (h : fs.make path node = .error .embeddedNull) : (0 : CodePoint) ∈ path := by
  rcases Except.bind_eq_error_iff.mp h with hlocate | ⟨place, -, h⟩
  · exact zero_mem_of_locate hlocate
  · cases place <;> cases h

theorem zero_mem_of_rename {source target : Text}
    (h : fs.rename source target = .error .embeddedNull) :
    (0 : CodePoint) ∈ source ∨ (0 : CodePoint) ∈ target := by
  rcases Except.bind_eq_error_iff.mp h with hsource | ⟨sourceRoute, -, h⟩
  · exact Or.inl (Route.zero_mem_of_ofText hsource)
  rcases Except.bind_eq_error_iff.mp h with htarget | ⟨targetRoute, -, h⟩
  · exact Or.inr (Route.zero_mem_of_ofText htarget)
  -- all other refusals are faults
  rcases Except.bind_eq_error_iff.mp h with hbefore | ⟨before, -, h⟩
  · obtain ⟨_, -, hfault⟩ := Except.mapError_eq_error_iff.mp hbefore
    cases hfault
  rcases Except.bind_eq_error_iff.mp h with hafter | ⟨after, -, h⟩
  · obtain ⟨_, -, hfault⟩ := Except.mapError_eq_error_iff.mp hafter
    cases hfault
  split at h
  · obtain ⟨_, -, hfault⟩ := Except.mapError_eq_error_iff.mp h
    cases hfault
  · cases h

end FileSystem

end BundleManifest
