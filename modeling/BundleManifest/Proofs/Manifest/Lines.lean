/-
# BundleManifest.Proofs.Manifest.Lines — the lines of a manifest

The text of a manifest ends every line, and `paths` takes the lines apart again. Without a line
break inside a path nothing is lost (`paths_text`), and the other way round only the end of the last
line is added (`text_paths`). A manifest goes to disk as bytes: its bytes are those of its paths, line
by line (`encode_text_iff`), and they are read line by line, so a path that is not read as it was
written leaves all others alone (`paths_decode`).
-/
import BundleManifest.Manifest.File
import BundleManifest.Proofs.Text.Pieces

namespace BundleManifest

/-- A sequence whose last piece is ended, unless it holds nothing at all. -/
def ended {α : Type} [DecidableEq α] (sep : α) (t : List α) : List α :=
  if t = [] ∨ t.getLast? = some sep then t else t ++ [sep]

namespace Utf8

/-- A text after it has been encoded and decoded. -/
def reread (t : Text) : Except Unencodable Text := (encode t).map decode

theorem reread_eq_ok_iff {t u : Text} :
    reread t = .ok u ↔ ∃ bytes, encode t = .ok bytes ∧ decode bytes = u := by
  unfold reread
  cases encode t with
  | error e => simp [Except.map]
  | ok bytes => simp [Except.map]

end Utf8

namespace Manifest

/-! ## Texts and paths -/

/-- The text of paths that are cut out of a text. -/
theorem text_cut (t : Text) : text (Text.split lineEnd t) = t ++ [lineEnd] := by
  have hglue {pieces : List Text} (h : pieces ≠ []) :
      text pieces = Text.join lineEnd pieces ++ [lineEnd] := by
    induction pieces with
    | nil => exact absurd rfl h
    | cons piece pieces ih =>
      cases pieces with
      | nil => simp [glue]
      | cons next pieces =>
        rw [text_cons, ih (List.cons_ne_nil next pieces)]
        simp [glue]
  rw [hglue (cut_ne_nil lineEnd t), Text.join, glue_cut]

/-- The text of the paths of a text is that text, with its last line ended. -/
theorem text_paths (t : Text) : text (paths t) = ended lineEnd t := by
  by_cases ht : t = []
  · subst ht
    rfl
  have hcut := text_cut t
  unfold paths ended
  rw [if_neg ht]
  by_cases hlast : (Text.split lineEnd t).getLast? = some []
  · -- the line that is not there has added the last line end
    obtain ⟨front, hfront⟩ := List.getLast?_eq_some_iff.mp hlast
    rw [hfront, text_append] at hcut
    rw [if_pos (getLast?_cut_eq_some_nil_iff.mp hlast), if_pos hlast, hfront, List.dropLast_concat]
    exact List.append_cancel_right hcut
  · rw [if_neg fun h => hlast (getLast?_cut_eq_some_nil_iff.mpr h)]
    simp only [if_neg hlast, hcut]

/-- Paths without a line break are read back from their text. -/
theorem paths_text {files : List Text} (h : ∀ x ∈ files, lineEnd ∉ x) :
    paths (text files) = files := by
  have hcut : Text.split lineEnd (text files) = files ++ [[]] := by
    induction files with
    | nil => rfl
    | cons x files ih =>
      obtain ⟨hx, hfiles⟩ := List.forall_mem_cons.mp h
      rw [text_cons, Text.split, cut_append, cut_of_not_mem hx]
      exact congrArg (x :: ·) (ih hfiles)
  cases files with
  | nil => rfl
  | cons x files =>
    have hne : text (x :: files) ≠ [] := by simp
    unfold paths
    rw [if_neg hne]
    simp only [hcut, List.getLast?_concat, if_true, List.dropLast_concat]

/-- No path of a text holds a line break. -/
theorem lineEnd_not_mem_of_mem_paths {t x : Text} (h : x ∈ paths t) : lineEnd ∉ x := by
  have hcut : x ∈ Text.split lineEnd t := by
    unfold paths at h
    split at h
    · cases h
    · extract_lets lines at h
      split at h
      · exact List.mem_of_mem_dropLast h
      · exact h
  exact not_mem_of_mem_cut hcut

/-! ## Bytes -/

/-- The byte that ends a line. -/
def newline : UInt8 := 0x0A

/-- The bytes of a manifest with these lines. -/
def content (lines : List Bytes) : Bytes := lines.flatMap fun line => line ++ [newline]

@[simp] theorem content_nil : content [] = [] := rfl

@[simp] theorem content_cons (line : Bytes) (lines : List Bytes) :
    content (line :: lines) = line ++ newline :: content lines := by
  simp [content]

/-- A manifest is encoded line by line. -/
theorem encode_text_iff {files : List Text} {bytes : Bytes} :
    Utf8.encode (text files) = .ok bytes ↔
      ∃ lines, List.Forall₂ (fun x line => Utf8.encode x = .ok line) files lines ∧
        bytes = content lines := by
  have hend : Utf8.encode [lineEnd] = .ok [newline] := rfl
  induction files generalizing bytes with
  | nil =>
    simp only [text_nil, Utf8.encode_nil, List.forall₂_nil_left_iff, exists_eq_left, content_nil,
      Except.ok.injEq]
    exact eq_comm
  | cons x files ih =>
    have htext : text (x :: files) = x ++ ([lineEnd] ++ text files) := by simp
    rw [htext]
    constructor
    · intro h
      obtain ⟨line, rest, hline, hrest, rfl⟩ := Utf8.encode_append_iff.mp h
      obtain ⟨first, last, hfirst, hlast, rfl⟩ := Utf8.encode_append_iff.mp hrest
      cases hend.symm.trans hfirst
      obtain ⟨lines, hlines, rfl⟩ := ih.mp hlast
      exact ⟨line :: lines, .cons hline hlines, by simp⟩
    · rintro ⟨_, hlines, rfl⟩
      cases hlines with
      | cons hline hlines =>
        have hrest := Utf8.encode_append_iff.mpr ⟨_, _, hend, ih.mpr ⟨_, hlines, rfl⟩, rfl⟩
        exact Utf8.encode_append_iff.mpr ⟨_, _, hline, hrest, by simp⟩

/-- A manifest has an encoding if all paths have one. -/
theorem exists_encode_text_iff {files : List Text} :
    (∃ bytes, Utf8.encode (text files) = .ok bytes) ↔
      ∀ x ∈ files, ∃ bytes, Utf8.encode x = .ok bytes := by
  induction files with
  | nil => simp
  | cons x files ih =>
    have hline : Utf8.encode [lineEnd] = .ok [0x0A] := rfl
    have htext : text (x :: files) = x ++ ([lineEnd] ++ text files) := by simp
    rw [List.forall_mem_cons, ← ih, htext]
    constructor
    · rintro ⟨bytes, hbytes⟩
      obtain ⟨first, rest, hfirst, hrest, -⟩ := Utf8.encode_append_iff.mp hbytes
      obtain ⟨-, last, -, hlast, -⟩ := Utf8.encode_append_iff.mp hrest
      exact ⟨⟨first, hfirst⟩, last, hlast⟩
    · rintro ⟨⟨first, hfirst⟩, last, hlast⟩
      have hrest := Utf8.encode_append_iff.mpr ⟨_, _, hline, hlast, rfl⟩
      exact ⟨_, Utf8.encode_append_iff.mpr ⟨_, _, hfirst, hrest, rfl⟩⟩

/-- The bytes of a manifest are decoded line by line, ill-formed lines included. -/
theorem decode_content (lines : List Bytes) :
    Utf8.decode (content lines) = text (lines.map Utf8.decode) := by
  induction lines with
  | nil => exact Utf8.decode_eq_nil_iff.mpr rfl
  | cons line lines ih =>
    rw [content_cons, Utf8.decode_append _ _ (by decide), ih, List.map_cons, text_cons]
    rfl

/-- What is read from the bytes of a manifest: each path as it is after encoding and decoding. -/
theorem paths_decode {files : List Text} {bytes : Bytes}
    (hbytes : Utf8.encode (text files) = .ok bytes) (h : ∀ x ∈ files, lineEnd ∉ x) :
    List.Forall₂ (fun x y => Utf8.reread x = .ok y) files (paths (Utf8.decode bytes)) := by
  obtain ⟨lines, hlines, rfl⟩ := encode_text_iff.mp hbytes
  have hbreaks : ∀ y ∈ lines.map Utf8.decode, lineEnd ∉ y := by
    clear hbytes
    induction hlines with
    | nil => simp
    | cons hline hlines ih =>
      obtain ⟨hx, hfiles⟩ := List.forall_mem_cons.mp h
      rw [List.map_cons, List.forall_mem_cons]
      refine ⟨fun hmem => hx ?_, ih hfiles⟩
      exact (Utf8.mem_encode_iff (b := newline) hline (by decide)).mp
        ((Utf8.mem_decode_iff (b := newline) (by decide)).mp hmem)
  rw [decode_content, paths_text hbreaks, List.forall₂_map_right_iff]
  exact hlines.imp fun x line hline => Utf8.reread_eq_ok_iff.mpr ⟨line, hline, rfl⟩

/-- A manifest is read back exactly when every path stands on one line and is read as it was
written. -/
theorem paths_decode_eq_iff {files : List Text} {bytes : Bytes}
    (hbytes : Utf8.encode (text files) = .ok bytes) :
    paths (Utf8.decode bytes) = files ↔ ∀ x ∈ files, lineEnd ∉ x ∧ Utf8.reread x = .ok x := by
  constructor
  · intro heq
    have hbreaks : ∀ x ∈ files, lineEnd ∉ x := fun x hx =>
      lineEnd_not_mem_of_mem_paths (heq ▸ hx)
    have hreread := paths_decode hbytes hbreaks
    rw [heq, List.forall₂_same] at hreread
    exact fun x hx => ⟨hbreaks x hx, hreread x hx⟩
  · intro h
    have hreread := paths_decode hbytes fun x hx => (h x hx).1
    generalize paths (Utf8.decode bytes) = again at hreread
    clear hbytes
    induction hreread with
    | nil => rfl
    | cons hy hrest ih =>
      obtain ⟨⟨-, hx⟩, hfiles⟩ := List.forall_mem_cons.mp h
      cases hy.symm.trans hx
      rw [ih hfiles]

/-- The last line of bytes is ended where the last line of their text is. -/
theorem decode_ended (bytes : Bytes) :
    Utf8.decode (ended newline bytes) = ended lineEnd (Utf8.decode bytes) := by
  have hended (front : Bytes) :
      Utf8.decode (front ++ [newline]) = Utf8.decode front ++ [lineEnd] := by
    rw [Utf8.decode_append _ _ (by decide), Utf8.decode_eq_nil_iff.mpr rfl]
    rfl
  have hlast : bytes.getLast? = some newline ↔ (Utf8.decode bytes).getLast? = some lineEnd := by
    rw [List.getLast?_eq_some_iff, List.getLast?_eq_some_iff]
    constructor
    · rintro ⟨front, rfl⟩
      exact ⟨Utf8.decode front, hended front⟩
    · rintro ⟨front, hfront⟩
      have hencode := Utf8.encode_decode bytes
      rw [hfront] at hencode
      obtain ⟨first, last, -, hlast, rfl⟩ := Utf8.encode_append_iff.mp hencode
      exact ⟨first, congrArg (first ++ ·) (Except.ok.inj hlast).symm⟩
  unfold ended
  by_cases h : bytes = [] ∨ bytes.getLast? = some newline
  · rw [if_pos h, if_pos (h.imp Utf8.decode_eq_nil_iff.mpr hlast.mp)]
  · rw [if_neg h, if_neg fun h' => h (h'.imp Utf8.decode_eq_nil_iff.mp hlast.mpr), hended]

/-- The paths that are read from bytes have an encoding: the same bytes, with their last line
ended. -/
theorem encode_text_paths (bytes : Bytes) :
    Utf8.encode (text (paths (Utf8.decode bytes))) = .ok (ended newline bytes) := by
  rw [text_paths, ← decode_ended, Utf8.encode_decode]

/-- Ending the last line adds no path. -/
theorem paths_decode_ended (bytes : Bytes) :
    paths (Utf8.decode (ended newline bytes)) = paths (Utf8.decode bytes) := by
  rw [decode_ended, ← text_paths]
  exact paths_text fun x hx => lineEnd_not_mem_of_mem_paths hx

end Manifest

end BundleManifest
