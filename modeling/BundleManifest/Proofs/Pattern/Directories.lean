/-
# BundleManifest.Proofs.Pattern.Directories — directory rules are file rules about ancestors

A rule about directories compares its segments with the directories above a file one by one; a rule about
files compares its whole body with a whole path. Both come to the same: a directory rule excludes a file
exactly when the file rule with its body, tied to the root, excludes some run of the directories, taken as
a path (`excludes_iff_fileRule`). `search?` is the search by positions. It never asks for a directory that
is not there.
-/
import BundleManifest.Pattern.Matching
import BundleManifest.Proofs.Pattern.Language

namespace BundleManifest

/-! ## Segments among directories -/

section
variable {accepts : Text → Text → Bool} {wanted directories : List Text}

/-- What leads a list matches a run at its beginning. -/
theorem leads_iff :
    leads accepts wanted directories = true ↔
      ∃ run after, directories = run ++ after ∧
        List.Forall₂ (fun w d => accepts w d = true) wanted run := by
  induction wanted generalizing directories with
  | nil =>
    rw [leads]
    exact iff_of_true rfl ⟨[], directories, rfl, .nil⟩
  | cons w wanted ih =>
    constructor
    · intro h
      cases directories with
      | nil =>
        rw [leads] at h
        cases h
      | cons d directories =>
        rw [leads, Bool.and_eq_true, ih] at h
        obtain ⟨hd, run, after, rfl, hrun⟩ := h
        exact ⟨d :: run, after, rfl, .cons hd hrun⟩
    · rintro ⟨_, after, rfl, hrun⟩
      cases hrun with
      | @cons _ d _ run hd hrun =>
        rw [List.cons_append, leads, Bool.and_eq_true]
        exact ⟨hd, ih.mpr ⟨run, after, rfl, hrun⟩⟩

theorem leadsSomewhere_iff :
    leadsSomewhere accepts wanted directories = true ↔
      ∃ before run after, directories = before ++ run ++ after ∧
        List.Forall₂ (fun w d => accepts w d = true) wanted run := by
  induction directories with
  | nil =>
    rw [leadsSomewhere, leads_iff]
    constructor
    · rintro ⟨run, after, hnil, hrun⟩
      exact ⟨[], run, after, hnil, hrun⟩
    · rintro ⟨before, run, after, hnil, hrun⟩
      rw [List.append_assoc] at hnil
      exact ⟨run, after, (List.append_eq_nil_iff.mp hnil.symm).2.symm, hrun⟩
  | cons d directories ih =>
    rw [leadsSomewhere, Bool.or_eq_true, leads_iff, ih]
    constructor
    · rintro (⟨run, after, hsplit, hrun⟩ | ⟨before, run, after, rfl, hrun⟩)
      · exact ⟨[], run, after, hsplit, hrun⟩
      · exact ⟨d :: before, run, after, rfl, hrun⟩
    · rintro ⟨before, run, after, hsplit, hrun⟩
      cases before with
      | nil => exact Or.inl ⟨run, after, hsplit, hrun⟩
      | cons e before =>
        obtain ⟨rfl, rfl⟩ := List.cons.inj hsplit
        exact Or.inr ⟨before, run, after, rfl, hrun⟩

end

namespace Pattern

section
variable {p : Pattern} {c : Candidate}

theorem segments_ne_nil (p : Pattern) : p.segments ≠ [] := cut_ne_nil _ _

theorem excludes_of_isDirectory (hp : p.kind.isDirectory = true) :
    p.excludes c = if p.anchored then leads p.segmentAccepts p.segments c.directories
      else leadsSomewhere p.segmentAccepts p.segments c.directories := by
  unfold excludes
  cases hkind : p.kind with
  | exactName =>
    rw [hkind] at hp
    cases hp
  | wildcard =>
    rw [hkind] at hp
    cases hp
  | directory => rfl
  | wildcardDirectory => rfl

/-- A rule about directories looks for a run of them, at the root if it is anchored. -/
theorem excludes_iff_run (hp : p.kind.isDirectory = true) :
    p.excludes c = true ↔
      ∃ before run after, c.directories = before ++ run ++ after ∧
        (p.anchored = true → before = []) ∧
        List.Forall₂ (fun w d => p.segmentAccepts w d = true) p.segments run := by
  rw [excludes_of_isDirectory hp]
  cases hanchored : p.anchored with
  | true =>
    rw [if_pos rfl, leads_iff]
    constructor
    · rintro ⟨run, after, hsplit, hrun⟩
      exact ⟨[], run, after, hsplit, fun _ => rfl, hrun⟩
    · rintro ⟨before, run, after, hsplit, hroot, hrun⟩
      rw [hroot rfl] at hsplit
      exact ⟨run, after, hsplit, hrun⟩
  | false =>
    rw [if_neg Bool.false_ne_true, leadsSomewhere_iff]
    constructor
    · rintro ⟨before, run, after, hsplit, hrun⟩
      exact ⟨before, run, after, hsplit, fun h => absurd h Bool.false_ne_true, hrun⟩
    · rintro ⟨before, run, after, hsplit, -, hrun⟩
      exact ⟨before, run, after, hsplit, hrun⟩

/-! ## The search by positions -/

/-- Compares segments one by one with the directories from a position on; none if there is no directory
at one of the positions. -/
def compareAt? (accepts : Text → Text → Bool) (directories : List Text) :
    Nat → List Text → Option Bool
  | _, [] => some true
  | position, w :: wanted =>
    match directories[position]? with
    | none => none
    | some d =>
      if accepts w d then compareAt? accepts directories (position + 1) wanted else some false

/-- Compares segments with the directories from each of some positions on, until they agree. -/
def searchFrom? (accepts : Text → Text → Bool) (directories wanted : List Text) :
    List Nat → Option Bool
  | [] => some false
  | start :: starts =>
    match compareAt? accepts directories start wanted with
    | some false => searchFrom? accepts directories wanted starts
    | answer => answer

/-- Looks for the segments of a rule at every position at which there are enough directories for all of
them, or at the first position only. -/
def search? (p : Pattern) (c : Candidate) : Option Bool :=
  if c.directories.length < p.segments.length then some false
  else searchFrom? p.segmentAccepts c.directories p.segments
    (if p.anchored then [0] else List.range (c.directories.length - p.segments.length + 1))

section
variable {accepts : Text → Text → Bool} {directories wanted : List Text}

theorem compareAt?_eq {start : Nat} (h : start + wanted.length ≤ directories.length) :
    compareAt? accepts directories start wanted
      = some (leads accepts wanted (directories.drop start)) := by
  induction wanted generalizing start with
  | nil => rfl
  | cons w wanted ih =>
    rw [List.length_cons] at h
    have hstart : start < directories.length := by omega
    have hlater := @ih (start + 1) (by omega)
    rw [compareAt?, List.getElem?_eq_getElem hstart, List.drop_eq_getElem_cons hstart, leads]
    cases haccepts : accepts w directories[start] with
    | true => simpa [haccepts] using hlater
    | false => simp [haccepts]

theorem searchFrom?_eq {starts : List Nat}
    (h : ∀ start ∈ starts, start + wanted.length ≤ directories.length) :
    searchFrom? accepts directories wanted starts
      = some (starts.any fun start => leads accepts wanted (directories.drop start)) := by
  induction starts with
  | nil => rfl
  | cons start starts ih =>
    have hlater := ih fun s hs => h s (List.mem_cons_of_mem start hs)
    rw [searchFrom?, compareAt?_eq (h start List.mem_cons_self), List.any_cons]
    cases leads accepts wanted (directories.drop start) with
    | true => rfl
    | false => exact hlater

end

/-- The search by positions finds what the rule says, and there is a directory at every position that it
looks at. -/
theorem search?_eq (hp : p.kind.isDirectory = true) : p.search? c = some (p.excludes c) := by
  unfold search?
  split
  · next hshort =>
    have hnone : ¬ p.excludes c = true := by
      rw [excludes_iff_run hp]
      rintro ⟨before, run, after, hsplit, -, hrun⟩
      have hlength := congrArg List.length hsplit
      have hrunLength := hrun.length_eq
      simp only [List.length_append] at hlength
      omega
    rw [Bool.eq_false_iff.mpr hnone]
  · next hlong =>
    rw [searchFrom?_eq, Option.some.injEq, Bool.eq_iff_iff, List.any_eq_true, excludes_iff_run hp]
    · constructor
      · rintro ⟨start, hstart, hleads⟩
        obtain ⟨run, after, hdrop, hrun⟩ := leads_iff.mp hleads
        refine ⟨c.directories.take start, run, after, ?_, ?_, hrun⟩
        · rw [List.append_assoc, ← hdrop, List.take_append_drop]
        · intro hanchored
          rw [hanchored, if_pos rfl, List.mem_singleton] at hstart
          rw [hstart, List.take_zero]
      · rintro ⟨before, run, after, hsplit, hroot, hrun⟩
        -- the run starts at the position that is the number of the directories before it
        refine ⟨before.length, ?_, leads_iff.mpr ⟨run, after, ?_, hrun⟩⟩
        · split
          · next hanchored =>
            rw [hroot hanchored]
            exact List.mem_singleton_self 0
          · have hlength := congrArg List.length hsplit
            have hrunLength := hrun.length_eq
            simp only [List.length_append] at hlength
            rw [List.mem_range]
            omega
        · rw [hsplit, List.append_assoc, List.drop_left]
    · intro start hstart
      split at hstart
      · rw [List.mem_singleton] at hstart
        omega
      · rw [List.mem_range] at hstart
        omega

/-! ## Rules about files -/

/-- The rule about files that compares the body of a rule with whole paths. -/
def fileRule (p : Pattern) : Pattern :=
  { p with kind := .ofFlags false p.kind.isWildcard, anchored := true }

/-- The rule about files compares segment by segment. -/
theorem fileRule_excludes_iff {run : List Text} (hne : run ≠ [])
    (hslash : ∀ s ∈ run, CodePoint.ofChar '/' ∉ s) :
    p.fileRule.excludes (Candidate.ofSegments run) = true ↔
      List.Forall₂ (fun w d => p.segmentAccepts w d = true) p.segments run := by
  have hsubject : p.fileRule.subject (Candidate.ofSegments run) = Text.join '/' run := by
    unfold subject
    rw [show p.fileRule.anchored = true from rfl, Bool.or_true, if_pos rfl]
    rfl
  have hcut : Text.split '/' (Text.join '/' run) = run := cut_glue hne hslash
  -- a rule without wildcards compares texts, and equal texts have equal segments
  unfold segmentAccepts excludes
  cases hwild : p.kind.isWildcard with
  | true =>
    have hkind : p.fileRule.kind = .wildcard := by
      unfold fileRule
      rw [hwild]
      rfl
    rw [hkind, if_pos rfl]
    show Wildcard.matches p.body (p.fileRule.subject (Candidate.ofSegments run)) = true ↔ _
    rw [hsubject, Wildcard.matches_iff, Wildcard.Matches.iff_segments, hcut]
    simp only [Wildcard.matches_iff]
    rfl
  | false =>
    have hkind : p.fileRule.kind = .exactName := by
      unfold fileRule
      rw [hwild]
      rfl
    rw [hkind, if_neg Bool.false_ne_true]
    show (p.fileRule.subject (Candidate.ofSegments run) == p.body) = true ↔ _
    rw [hsubject, beq_iff_eq]
    simp only [beq_iff_eq]
    rw [List.forall₂_eq_eq_eq]
    constructor
    · intro h
      rw [segments, ← h, hcut]
    · intro h
      rw [← h]
      exact glue_cut _ _

/-- The same for a run among the directories of a file. -/
theorem fileRule_excludes_run_iff (hslash : ∀ s ∈ c.segments, CodePoint.ofChar '/' ∉ s)
    {before run after : List Text} (hsplit : c.directories = before ++ run ++ after)
    (hlength : run.length = p.segments.length) :
    p.fileRule.excludes (Candidate.ofSegments run) = true ↔
      List.Forall₂ (fun w d => p.segmentAccepts w d = true) p.segments run := by
  apply fileRule_excludes_iff
  · rintro rfl
    exact p.segments_ne_nil (List.length_eq_zero_iff.mp hlength.symm)
  · intro s hs
    apply hslash s
    apply List.mem_of_mem_dropLast
    show s ∈ c.directories
    rw [hsplit]
    exact List.mem_append_left _ (List.mem_append_right _ hs)

/-- A directory rule excludes a file exactly when the file rule with its body, compared with whole paths,
excludes some run of as many directories, which begins at the root if the rule is anchored. The search by
positions always answers, the name of the file does not matter, and further directories below the others
do not save a file. -/
theorem excludes_iff_fileRule (hp : p.kind.isDirectory = true)
    (hslash : ∀ s ∈ c.segments, CodePoint.ofChar '/' ∉ s) :
    (p.excludes c = true ↔
      ∃ before run after, c.directories = before ++ run ++ after ∧
        run.length = p.segments.length ∧ (p.anchored = true → before = []) ∧
        p.fileRule.excludes (Candidate.ofSegments run) = true) ∧
    p.search? c = some (p.excludes c) ∧
    (∀ d : Candidate, d.directories = c.directories → p.excludes d = p.excludes c) ∧
    (p.excludes c = true →
      ∀ d : Candidate, c.directories <+: d.directories → p.excludes d = true) := by
  refine ⟨?_, search?_eq hp, ?_, ?_⟩
  · rw [excludes_iff_run hp]
    constructor
    · rintro ⟨before, run, after, hsplit, hroot, hrun⟩
      have hlength : run.length = p.segments.length := hrun.length_eq.symm
      exact ⟨before, run, after, hsplit, hlength, hroot,
        (fileRule_excludes_run_iff hslash hsplit hlength).mpr hrun⟩
    · rintro ⟨before, run, after, hsplit, hlength, hroot, hrule⟩
      exact ⟨before, run, after, hsplit, hroot,
        (fileRule_excludes_run_iff hslash hsplit hlength).mp hrule⟩
  · intro d hd
    rw [Bool.eq_iff_iff, excludes_iff_run hp, excludes_iff_run hp, hd]
  · rw [excludes_iff_run hp]
    rintro ⟨before, run, after, hsplit, hroot, hrun⟩ d ⟨further, hfurther⟩
    rw [excludes_iff_run hp]
    refine ⟨before, run, after ++ further, ?_, hroot, hrun⟩
    rw [← hfurther, hsplit, List.append_assoc]

end

/-- A rule of two segments with wildcards. -/
def cacheRule : Pattern := ⟨"cache?/*.d/", .wildcardDirectory, "cache?/*.d", false⟩

/-- A file that lies below directories that the rule names, with one directory above and one below
them. -/
def cachedFile : Candidate := .ofPath "src/cache1/x.d/deep/f"

theorem excludes_iff_fileRule_cache :
    parse? "cache?/*.d/" = some cacheRule ∧ cacheRule.kind.isDirectory = true ∧
    (∀ s ∈ cachedFile.segments, CodePoint.ofChar '/' ∉ s) ∧
    (cacheRule.excludes cachedFile = true ∧ cacheRule.search? cachedFile = some true ∧
      ∀ d : Candidate, cachedFile.directories <+: d.directories → cacheRule.excludes d = true) := by
  have hslash : ∀ s ∈ cachedFile.segments, CodePoint.ofChar '/' ∉ s := by decide
  obtain ⟨hexcludes, hsearch, -, hmore⟩ := excludes_iff_fileRule (p := cacheRule) rfl hslash
  have hexcluded : cacheRule.excludes cachedFile = true :=
    hexcludes.mpr ⟨["src"], ["cache1", "x.d"], ["deep"], by decide, by decide, nofun, by decide⟩
  exact ⟨by decide, rfl, hslash, hexcluded, hexcluded ▸ hsearch, hmore hexcluded⟩

end Pattern

end BundleManifest
