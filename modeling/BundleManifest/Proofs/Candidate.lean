/-
# BundleManifest.Proofs.Candidate — the normal form of a relative path

The segments of a candidate are what stands between the separators of a text, of either style, without the
empty pieces and the single points. What is taken off in front of the text beforehand would be left out
anyway, so the segments on both sides of a separator do not depend on each other
(`segmentsOf_append_cons`), and none of the ways in which a path can be written differently changes them
(`Respell.segmentsOf_eq`). Conversely every text can be rewritten as the path of its candidate
(`respelled_path`): two texts are the same candidate exactly if they differ in their spelling only.
-/
import BundleManifest.Candidate
import BundleManifest.Proofs.Pattern.Canonical

namespace BundleManifest

/-- What stands between the slashes, once all separators are slashes, is what stands between the separators. -/
theorem Text.split_replace (t : Text) :
    Text.split '/' (Text.replace '\\' '/' t) = t.splitOnP fun c => decide c.IsSeparator := by
  induction t with
  | nil => rfl
  | cons c t ih =>
    rw [List.splitOnP_cons_eq_if_modifyHead, ← ih]
    by_cases hc : c.IsSeparator
    · rw [if_pos (decide_eq_true hc)]
      exact (congrArg (Text.split '/') (Pattern.replace_append_cons hc [] t)).trans
        (cut_append (CodePoint.ofChar '/') [] _)
    · obtain ⟨hslash, hback⟩ := not_or.mp hc
      have hkept : Text.replace '\\' '/' (c :: t) = c :: Text.replace '\\' '/' t := by
        unfold Text.replace
        rw [List.map_cons, if_neg hback]
      rw [if_neg (by simpa using hc), hkept, Text.split, cut, if_neg hslash]
      obtain ⟨piece, pieces, hcut⟩ := List.exists_cons_of_ne_nil
        (cut_ne_nil (CodePoint.ofChar '/') (Text.replace '\\' '/' t))
      rw [Text.split, hcut]
      rfl

namespace Candidate

/-- The segments are the pieces between the separators that name something. -/
theorem segmentsOf_eq_filter (path : Text) :
    segmentsOf path = (path.splitOnP fun c => decide c.IsSeparator).filter fun s =>
      s != [] && s != Text.dot := by
  rw [segmentsOf_eq, Text.split_replace]

theorem segmentsOf_append_cons {c : CodePoint} (hc : c.IsSeparator) (a b : Text) :
    segmentsOf (a ++ c :: b) = segmentsOf a ++ segmentsOf b := by
  simp only [segmentsOf_eq]
  rw [Pattern.replace_append_cons hc, Text.split, cut_append, List.filter_append]

@[simp] theorem segmentsOf_nil : segmentsOf [] = [] := rfl

/-! ## Rewriting a path -/

/-- A relative path is written in another way. -/
inductive Respell : Text → Text → Prop
  | style {c d : CodePoint} (hc : c.IsSeparator) (hd : d.IsSeparator) (a b : Text) :
    Respell (a ++ c :: b) (a ++ d :: b)
  | repeated {c d : CodePoint} (hc : c.IsSeparator) (hd : d.IsSeparator) (a b : Text) :
    Respell (a ++ c :: b) (a ++ c :: d :: b)
  | hereFirst {d : CodePoint} (hd : d.IsSeparator) (b : Text) :
    Respell b (CodePoint.ofChar '.' :: d :: b)
  | here {c d : CodePoint} (hc : c.IsSeparator) (hd : d.IsSeparator) (a b : Text) :
    Respell (a ++ c :: b) (a ++ c :: CodePoint.ofChar '.' :: d :: b)
  | ended {d : CodePoint} (hd : d.IsSeparator) (a : Text) : Respell a (a ++ [d])

/-- Texts that are the same up to the style and number of their separators, to points between them, and to
a separator at the end. -/
def Respelled : Text → Text → Prop := Relation.EqvGen Respell

theorem Respelled.equivalence : Equivalence Respelled := Relation.EqvGen.is_equivalence Respell

/-- A point in front of a separator is no segment. -/
theorem segmentsOf_here {d : CodePoint} (hd : d.IsSeparator) (b : Text) :
    segmentsOf (CodePoint.ofChar '.' :: d :: b) = segmentsOf b :=
  segmentsOf_append_cons hd [CodePoint.ofChar '.'] b

theorem Respell.segmentsOf_eq {path other : Text} (h : Respell path other) :
    segmentsOf other = segmentsOf path := by
  cases h with
  | style hc hd a b => rw [segmentsOf_append_cons hc, segmentsOf_append_cons hd]
  | repeated hc hd a b =>
    rw [segmentsOf_append_cons hc, segmentsOf_append_cons hc]
    exact congrArg (segmentsOf a ++ ·) (segmentsOf_append_cons hd [] b)
  | hereFirst hd => exact segmentsOf_here hd path
  | here hc hd a b => rw [segmentsOf_append_cons hc, segmentsOf_append_cons hc, segmentsOf_here hd]
  | ended hd => rw [segmentsOf_append_cons hd, segmentsOf_nil, List.append_nil]

theorem Respelled.segmentsOf_eq {path other : Text} (h : Respelled path other) :
    segmentsOf other = segmentsOf path := by
  induction h with
  | rel path other hstep => exact hstep.segmentsOf_eq
  | refl path => rfl
  | symm path other _ ih => exact ih.symm
  | trans path middle other _ _ ih ih' => exact ih'.trans ih

/-! ## Every text can be rewritten as the path of its candidate -/

/-- Pieces with a slash in front of each. -/
def spread (pieces : List Text) : Text := pieces.flatMap (CodePoint.ofChar '/' :: ·)

@[simp] theorem spread_nil : spread [] = [] := rfl

@[simp] theorem spread_cons (piece : Text) (pieces : List Text) :
    spread (piece :: pieces) = CodePoint.ofChar '/' :: (piece ++ spread pieces) := rfl

theorem spread_eq_cons_glue {pieces : List Text} (h : pieces ≠ []) :
    spread pieces = CodePoint.ofChar '/' :: Text.join '/' pieces := by
  induction pieces with
  | nil => exact absurd rfl h
  | cons piece rest ih =>
    cases rest with
    | nil => simp [glue]
    | cons next rest => rw [spread_cons, ih (List.cons_ne_nil next rest), Text.join, Text.join, glue]

/-- An empty piece can be left out. -/
theorem respelled_slash (a : Text) (pieces : List Text) :
    Respelled (a ++ CodePoint.ofChar '/' :: spread pieces) (a ++ spread pieces) := by
  cases pieces with
  | nil =>
    rw [spread_nil, List.append_nil]
    exact .symm _ _ (.rel _ _ (.ended (Or.inl rfl) a))
  | cons piece rest => exact .symm _ _ (.rel _ _ (.repeated (Or.inl rfl) (Or.inl rfl) a _))

/-- A piece that is a single point can be left out. -/
theorem respelled_dot (a : Text) (pieces : List Text) :
    Respelled (a ++ CodePoint.ofChar '/' :: CodePoint.ofChar '.' :: spread pieces)
      (a ++ spread pieces) := by
  refine .trans _ _ _ ?_ (respelled_slash a pieces)
  cases pieces with
  | nil =>
    -- a separator behind the point makes it one that can be left out
    have hended : Respell (a ++ [CodePoint.ofChar '/', CodePoint.ofChar '.'])
        (a ++ [CodePoint.ofChar '/', CodePoint.ofChar '.'] ++ [CodePoint.ofChar '/']) :=
      .ended (Or.inl rfl) _
    have hhere : Respell (a ++ [CodePoint.ofChar '/'])
        (a ++ [CodePoint.ofChar '/', CodePoint.ofChar '.', CodePoint.ofChar '/']) :=
      .here (Or.inl rfl) (Or.inl rfl) a []
    rw [List.append_assoc] at hended
    exact .trans _ _ _ (.rel _ _ hended) (.symm _ _ (.rel _ _ hhere))
  | cons piece rest =>
    have hhere : Respell (a ++ CodePoint.ofChar '/' :: (piece ++ spread rest))
        (a ++ CodePoint.ofChar '/' :: CodePoint.ofChar '.' :: spread (piece :: rest)) :=
      .here (Or.inl rfl) (Or.inl rfl) a _
    refine .trans _ _ _ (.symm _ _ (.rel _ _ hhere)) ?_
    exact .rel _ _ (.repeated (Or.inl rfl) (Or.inl rfl) a _)

/-- All pieces that name nothing can be left out. -/
theorem respelled_filter (a : Text) (pieces : List Text) :
    Respelled (a ++ spread pieces)
      (a ++ spread (pieces.filter fun s => s != [] && s != Text.dot)) := by
  induction pieces generalizing a with
  | nil => exact .refl _
  | cons piece rest ih =>
    by_cases hempty : piece = []
    · subst hempty
      exact .trans _ _ _ (respelled_slash a rest) (ih a)
    by_cases hdot : piece = Text.dot
    · subst hdot
      exact .trans _ _ _ (respelled_dot a rest) (ih a)
    rw [List.filter_cons_of_pos (by simp [hempty, hdot])]
    simpa using ih (a ++ CodePoint.ofChar '/' :: piece)

/-- A text can be rewritten as the path of the candidate that it names. -/
theorem respelled_path (path : Text) : Respelled path (ofPath path).path := by
  have hreplace : Respelled path (Text.replace '\\' '/' path) :=
    CodePoint.replace_of_style Respelled.equivalence
      (fun hc hd a b => .rel _ _ (.style hc hd a b)) [] path
  have hfirst (t : Text) : Respelled t (CodePoint.ofChar '.' :: CodePoint.ofChar '/' :: t) :=
    .rel _ _ (.hereFirst (Or.inl rfl) t)
  -- behind a point in front, each piece has its slash
  have hpieces := spread_eq_cons_glue
    (cut_ne_nil (CodePoint.ofChar '/') (Text.replace '\\' '/' path))
  rw [Text.join, glue_cut] at hpieces
  have hfilter : Respelled (CodePoint.ofChar '.' :: CodePoint.ofChar '/' :: Text.replace '\\' '/' path)
      (CodePoint.ofChar '.' :: spread (segmentsOf path)) := by
    have h := respelled_filter Text.dot (Text.split '/' (Text.replace '\\' '/' path))
    rw [← Candidate.segmentsOf_eq, Text.split, hpieces] at h
    exact h
  have hback : Respelled (CodePoint.ofChar '.' :: spread (segmentsOf path)) (ofPath path).path := by
    unfold ofPath ofSegments
    by_cases hnil : segmentsOf path = []
    · rw [hnil]
      exact .trans _ _ _ (.rel _ _ (.ended (Or.inl rfl) Text.dot)) (.symm _ _ (hfirst []))
    · rw [spread_eq_cons_glue hnil]
      exact .symm _ _ (hfirst _)
  exact hreplace.trans _ _ _ ((hfirst _).trans _ _ _ (hfilter.trans _ _ _ hback))

/-! ## The normal form -/

theorem ofPath_eq_iff {path other : Text} :
    ofPath other = ofPath path ↔ segmentsOf other = segmentsOf path :=
  ⟨congrArg Candidate.segments, congrArg ofSegments⟩

/-- Two texts name the same candidate if they differ in their spelling only. -/
theorem ofPath_eq_iff_respelled {path other : Text} :
    ofPath other = ofPath path ↔ Respelled path other := by
  constructor
  · intro h
    have hother : Respelled (ofPath path).path other := by
      rw [← h]
      exact .symm _ _ (respelled_path other)
    exact (respelled_path path).trans _ _ _ hother
  · intro h
    exact ofPath_eq_iff.mpr h.segmentsOf_eq

theorem split_path {path : Text} (h : segmentsOf path ≠ []) :
    Text.split '/' (ofPath path).path = segmentsOf path := by
  apply cut_glue h
  intro s hs
  rw [segmentsOf_eq] at hs
  exact not_mem_of_mem_cut (List.mem_filter.mp hs).1

/-- The candidate of a text has the pieces between the separators as its segments, in their order, without
the empty ones and the single points; its path is these segments with slashes between them, and can be
split into them again; its directories and its name are these segments. The path of a candidate names the
same candidate, and another text names it exactly if it is the text in another spelling: separators of
the other style, repeated, followed by `./`, at the end, or a `./` in front. -/
theorem ofPath_normal_form (path : Text) :
    (ofPath path).segments = ((path.splitOnP fun c => decide c.IsSeparator).filter fun s =>
      decide (s ≠ [] ∧ s ≠ Text.dot)) ∧
    (ofPath path).path = Text.join '/' (ofPath path).segments ∧
    ((ofPath path).path ≠ [] → Text.split '/' (ofPath path).path = (ofPath path).segments) ∧
    ((ofPath path).segments ≠ [] →
      (ofPath path).directories ++ [(ofPath path).name] = (ofPath path).segments) ∧
    ((ofPath path).segments = [] → (ofPath path).directories = [] ∧ (ofPath path).name = []) ∧
    ofPath (ofPath path).path = ofPath path ∧
    ∀ other, ofPath other = ofPath path ↔ Respelled path other := by
  refine ⟨?_, rfl, ?_, directories_append_name, ?_, ?_, fun other => ofPath_eq_iff_respelled⟩
  · rw [ofPath, ofSegments, segmentsOf_eq_filter]
    apply List.filter_congr
    intro s _
    rw [Bool.eq_iff_iff]
    simp
  · intro hne
    apply split_path
    intro hnil
    apply hne
    rw [ofPath, ofSegments, hnil]
    rfl
  · intro hnil
    unfold directories name
    rw [hnil]
    exact ⟨rfl, rfl⟩
  · exact ofPath_eq_iff_respelled.mpr (respelled_path path)

/-- A path that is written with everything that does not matter, next to names that only look like it. -/
theorem ofPath_normal_form_untidy :
    (ofPath ".//.\\.hidden\\../ .//...\\.").path ≠ [] ∧
    Text.split '/' (ofPath ".//.\\.hidden\\../ .//...\\.").path = [".hidden", "..", " .", "..."] ∧
    Respelled ".//.\\.hidden\\../ .//...\\." ".hidden/.././ ./.../" := by
  have hne : (ofPath ".//.\\.hidden\\../ .//...\\.").path ≠ [] := by decide
  have hsegments : (ofPath ".//.\\.hidden\\../ .//...\\.").segments
      = [".hidden", "..", " .", "..."] := by decide
  obtain ⟨-, -, hsplit, -, -, -, hspelled⟩ := ofPath_normal_form ".//.\\.hidden\\../ .//...\\."
  refine ⟨hne, ?_, ?_⟩
  · rw [hsplit hne, hsegments]
  · exact (hspelled ".hidden/.././ ./.../").mp (by decide)

end Candidate

end BundleManifest
