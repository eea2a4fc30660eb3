/-
# BundleManifest.Proofs.Walk.NormalForm — which paths of a walk mean the same when they are read again

A walk knows a file by the segments of its path, and these are names that the operating system allows
(`files_traverse_legal`). `Candidate.ofPath` takes a path apart anew, as one does with a path from a
manifest, and takes a backslash for a separator too. It comes to the same file exactly where the path
holds no backslash (`ofPath_relativePath_iff`). Nothing else that may stand in a name makes a difference:
names are not empty, hold no slash, and are no single point.
-/
import BundleManifest.Pattern.Matching
import BundleManifest.Proofs.FileSystem.Asking
import BundleManifest.Proofs.FileSystem.Descent
import BundleManifest.Proofs.Walk.Candidates
import BundleManifest.Proofs.Walk.Coverage

namespace BundleManifest

/-! ## Reading a path again -/

namespace Candidate

/-- No path in normal form holds a backslash. -/
theorem backslash_not_mem_ofPath (path : Text) :
    CodePoint.ofChar '\\' ∉ (ofPath path).path := by
  have hsep : CodePoint.ofChar '\\' ≠ CodePoint.ofChar '/' := by decide
  show CodePoint.ofChar '\\' ∉ glue (CodePoint.ofChar '/') (segmentsOf path)
  rw [mem_glue_iff hsep, segmentsOf_eq]
  rintro ⟨segment, hsegment, hmem⟩
  have hcut := (List.mem_filter.mp hsegment).1
  exact Text.old_not_mem_replace hsep path (mem_of_mem_cut hcut hmem)

end Candidate

/-- The text of a name is neither empty nor a single point. -/
theorem LegalName.decode_ne {name : Bytes} (h : LegalName name) :
    Utf8.decode name ≠ [] ∧ Utf8.decode name ≠ Text.dot := by
  constructor
  · rw [ne_eq, Utf8.decode_eq_nil_iff]
    exact h.ne_nil
  · rw [ne_eq, Utf8.decode_eq_dot_iff]
    exact h.ne_self

namespace Walk

section
variable {names : List Bytes} (hne : names ≠ []) (hlegal : ∀ name ∈ names, LegalName name)
include hne hlegal

/-- The names on a path are what stands between its slashes. -/
theorem split_relativePath : Text.split '/' (relativePath names) = names.map Utf8.decode := by
  apply cut_glue
  · simpa using hne
  · intro piece hpiece
    obtain ⟨name, hname, rfl⟩ := List.mem_map.mp hpiece
    exact (hlegal name hname).slash_not_mem_decode

/-- A path without backslashes is cut into the names on it. -/
theorem segmentsOf_relativePath (hback : CodePoint.ofChar '\\' ∉ relativePath names) :
    Candidate.segmentsOf (relativePath names) = names.map Utf8.decode := by
  rw [Candidate.segmentsOf_eq, Text.replace_of_not_mem hback, split_relativePath hne hlegal,
    List.filter_eq_self]
  intro segment hsegment
  obtain ⟨name, hname, rfl⟩ := List.mem_map.mp hsegment
  simpa using (hlegal name hname).decode_ne

/-- Read again, the path of a file names the same file exactly if it holds no backslash. -/
theorem ofPath_relativePath_iff :
    Candidate.ofPath (relativePath names) = Candidate.under (relativePath names) ↔
      CodePoint.ofChar '\\' ∉ relativePath names := by
  constructor
  · intro h
    have hpath : (Candidate.ofPath (relativePath names)).path = relativePath names :=
      congrArg Candidate.path h
    rw [← hpath]
    exact Candidate.backslash_not_mem_ofPath _
  · intro hback
    unfold Candidate.ofPath Candidate.ofSegments Candidate.under
    rw [segmentsOf_relativePath hne hlegal hback, split_relativePath hne hlegal]
    rfl

end

/-! ## The paths of a walk -/

/-- What the paths below a directory start with. -/
def leadingOf (names : List Bytes) : Text := names.flatMap fun name => Utf8.decode name ++ "/"

theorem leadingOf_concat (names : List Bytes) (name : Bytes) :
    leadingOf (names ++ [name]) = leadingOf names ++ Utf8.decode name ++ "/" := by
  simp [leadingOf]

theorem relativePath_concat (names : List Bytes) (name : Bytes) :
    relativePath (names ++ [name]) = leadingOf names ++ Utf8.decode name := by
  induction names with
  | nil => rfl
  | cons first names ih =>
    rw [List.cons_append, relativePath_cons first (by simp), ih]
    simp [leadingOf]

/-- The path of something under names that the operating system allows. -/
def OfLegalNames (x : Text) : Prop :=
  ∃ names, names ≠ [] ∧ (∀ name ∈ names, LegalName name) ∧ x = relativePath names

/-- Whoever receives the files never leaves a file system that the operating system does not allow. -/
def Receiver.KeepsSound (receive : Receiver) : Prop :=
  ∀ n world, world.files.Sound → (receive n world).world.files.Sound

/-- A run hands out files under legal names only, and leaves sound files. -/
structure Run.Legal (r : Run) : Prop where
  files : ∀ x ∈ r.files, OfLegalNames x
  sound : r.state.world.files.Sound

namespace Run

theorem legal_of_files_eq_nil {r : Run} (h : r.files = []) (hsound : r.state.world.files.Sound) :
    r.Legal := by
  refine ⟨fun x hx => ?_, hsound⟩
  rw [h] at hx
  cases hx

theorem Legal.andThen {first : Run} {next : State → Run} (hfirst : first.Legal)
    (hnext : ∀ s, s.world.files.Sound → (next s).Legal) : (first.andThen next).Legal := by
  cases hhalt : first.halt with
  | some halt =>
    rw [andThen_of_halt hhalt]
    exact hfirst
  | none =>
    have hrest := hnext first.state hfirst.sound
    refine ⟨fun x hx => ?_, ?_⟩
    · rw [files_andThen, hhalt] at hx
      rcases List.mem_append.mp hx with hx | hx
      · exact hfirst.files x hx
      · exact hrest.files x hx
    · rw [state_andThen hhalt]
      exact hrest.sound

end Run

section
variable {receive : Receiver} (hreceive : receive.KeepsSound)

theorem legal_checkpoint {s : State} (hs : s.world.files.Sound) : (checkpoint s).Legal := by
  unfold checkpoint
  split
  · exact Run.legal_of_files_eq_nil rfl hs
  · exact Run.legal_of_files_eq_nil rfl hs

include hreceive

theorem legal_visit {enter : Text → Text → Inode → Bool → State → Run}
    (henter : ∀ path names i via s, (∀ name ∈ names, LegalName name) → s.world.files.Sound →
      (enter path (leadingOf names) i via s).Legal)
    (directory : Text) {names : List Bytes} (hnames : ∀ name ∈ names, LegalName name) {item : Item}
    {name : Bytes} (hname : LegalName name) (hitem : item.name = Utf8.decode name) {s : State}
    (hs : s.world.files.Sound) :
    (visit receive enter directory (leadingOf names) item s).Legal := by
  have hall : ∀ other ∈ names ++ [name], LegalName other := by
    intro other hother
    rcases List.mem_append.mp hother with hother | hother
    · exact hnames other hother
    · rw [List.mem_singleton.mp hother]
      exact hname
  unfold visit
  extract_lets below path
  split
  · refine ⟨fun x hx => ?_, hreceive _ _ hs⟩
    rw [files_handOut, List.mem_singleton] at hx
    refine ⟨names ++ [name], by simp, hall, ?_⟩
    rw [hx, relativePath_concat, ← hitem]
  split
  · exact Run.legal_of_files_eq_nil rfl hs
  · exact Run.legal_of_files_eq_nil rfl hs
  · split
    · exact Run.legal_of_files_eq_nil rfl hs
    · have hbelow : below ++ "/" = leadingOf (names ++ [name]) := by
        rw [leadingOf_concat, ← hitem]
      rw [hbelow]
      apply henter
      · exact hall
      · exact hs

theorem legal_visitAll (options : Options) {enter : Text → Text → Inode → Bool → State → Run}
    (henter : ∀ path names i via s, (∀ name ∈ names, LegalName name) → s.world.files.Sound →
      (enter path (leadingOf names) i via s).Legal)
    (directory : Text) {names : List Bytes} (hnames : ∀ name ∈ names, LegalName name) (index : Nat)
    {items : List Item}
    (hitems : ∀ item ∈ items, ∃ name, LegalName name ∧ item.name = Utf8.decode name) {s : State}
    (hs : s.world.files.Sound) :
    (visitAll options receive enter directory (leadingOf names) index items s).Legal := by
  induction items generalizing index s with
  | nil => exact Run.legal_of_files_eq_nil rfl hs
  | cons item items ih =>
    obtain ⟨name, hname, hitem⟩ := hitems item List.mem_cons_self
    rw [visitAll]
    apply Run.Legal.andThen
    · apply Run.Legal.andThen
      · split
        · exact legal_checkpoint hs
        · exact Run.legal_of_files_eq_nil rfl hs
      · intro t ht
        exact legal_visit hreceive henter directory hnames hname hitem ht
    · intro t ht
      exact ih (index + 1) (fun other hother => hitems other (List.mem_cons_of_mem item hother)) ht

theorem legal_enter (options : Options) (depth : Nat) (path : Text) (names : List Bytes) (d : Inode)
    (via : Bool) (s : State) (hnames : ∀ name ∈ names, LegalName name)
    (hs : s.world.files.Sound) :
    (enter options receive depth path (leadingOf names) d via s).Legal := by
  induction depth generalizing path names d via s with
  | zero => exact Run.legal_of_files_eq_nil rfl hs
  | succ depth ih =>
    rw [enter]
    apply (legal_checkpoint hs).andThen
    intro t ht
    split
    · exact Run.legal_of_files_eq_nil rfl ht
    · exact Run.legal_of_files_eq_nil rfl ht
    · next listed hscan =>
      obtain ⟨e, entries, -, hentries, rfl⟩ := FileSystem.scan_eq_ok_iff.mp hscan
      apply Run.Legal.andThen
      · apply Run.legal_of_files_eq_nil
        · rw [Run.files, List.filterMap_cons]
          exact filterMap_reported (fun _ => rfl) _
        · exact ht
      · intro u hu
        apply legal_visitAll hreceive options ih path hnames
        · -- the items are those of the directory when it was listed
          intro item hitem
          exact legal_of_mem_itemsOf ht hentries hitem
        · exact hu

/-- A walk hands out paths of legal names only, whatever becomes of the files meanwhile. -/
theorem files_traverse_legal (options : Options) (root : Path) {fs : FileSystem} (hfs : fs.Sound)
    (token : CancellationToken) :
    ∀ x ∈ (traverse options receive root ⟨fs, token⟩).files, OfLegalNames x := by
  apply Run.Legal.files
  unfold traverse
  extract_lets start
  split
  · exact Run.legal_of_files_eq_nil rfl hfs
  · exact Run.legal_of_files_eq_nil rfl hfs
  · exact legal_enter hreceive options depthLimit _ [] _ _ _ (by simp) hfs

/-- A file that a walk hands out is the one that its path names, read again, exactly if the path holds no
backslash. With files of such paths, no line can tell the walked files from their paths: it excludes the
same ones and lists the same paths. -/
theorem ofPath_path_iff {fs : FileSystem} (hfs : fs.Sound) (token : CancellationToken)
    (options : Options) (root : Path) :
    let run := traverse options receive root ⟨fs, token⟩
    (∀ c ∈ run.candidates, Candidate.ofPath c.path = c ↔ CodePoint.ofChar '\\' ∉ c.path) ∧
    ∀ walked, walked ⊆ run.candidates → (∀ c ∈ walked, CodePoint.ofChar '\\' ∉ c.path) →
      ∀ line, Pattern.excludedBy line ((walked.map Candidate.path).map Candidate.ofPath)
        = Pattern.excludedBy line walked := by
  intro run
  have hiff : ∀ c ∈ run.candidates,
      Candidate.ofPath c.path = c ↔ CodePoint.ofChar '\\' ∉ c.path := by
    intro c hc
    have hcandidates : run.candidates = run.files.map Candidate.under :=
      candidates_traverse options receive root ⟨fs, token⟩
    rw [hcandidates] at hc
    obtain ⟨x, hx, rfl⟩ := List.mem_map.mp hc
    obtain ⟨names, hne, hlegal, rfl⟩ := files_traverse_legal hreceive options root hfs token x hx
    exact ofPath_relativePath_iff hne hlegal
  refine ⟨hiff, fun walked hwalked hback line => ?_⟩
  have hsame : (walked.map Candidate.path).map Candidate.ofPath = walked := by
    rw [List.map_map]
    conv_rhs => rw [← List.map_id walked]
    apply List.map_congr_left
    intro c hc
    exact (hiff c (hwalked hc)).mpr (hback c hc)
  rw [hsame]

end

theorem keepsSound_amid (schedule : Nat → List FileSystem.Change) :
    (Receiver.amid schedule).KeepsSound :=
  fun n _ h => FileSystem.sound_applyAll h (schedule n)

theorem ofPath_path_iff_replacement :
    (Receiver.amid replacement).KeepsSound ∧ crossing.Sound ∧
      let run := traverse {} (Receiver.amid replacement) ⟨.here, []⟩ ⟨crossing, {}⟩
      (∀ c ∈ run.candidates, Candidate.ofPath c.path = c ↔ CodePoint.ofChar '\\' ∉ c.path) ∧
      ∀ walked, walked ⊆ run.candidates → (∀ c ∈ walked, CodePoint.ofChar '\\' ∉ c.path) →
        ∀ line, Pattern.excludedBy line ((walked.map Candidate.path).map Candidate.ofPath)
          = Pattern.excludedBy line walked :=
  ⟨keepsSound_amid replacement, by decide,
    ofPath_path_iff (keepsSound_amid replacement) (by decide) {} {} ⟨.here, []⟩⟩

/-- A file whose name holds a backslash. -/
def slanted : FileSystem where
  nodes := [(0, .directory 0 [([0x61, 0x5C, 0x62], 1)]), (1, .regular [])]
  here := 0
  herePath := ⟨.root, []⟩

set_option maxRecDepth 2000 in
theorem candidates_slanted :
    (traverse {} Receiver.passive ⟨.here, []⟩ ⟨slanted, {}⟩).candidates
      = [⟨"a\\b", ["a\\b"]⟩] := by
  cbv

/-- A backslash in a name is a separator when the path is read again. -/
theorem not_every_path_names_its_file :
    ¬ ∀ (fs : FileSystem) (options : Options) (root : Path), fs.Sound →
      ∀ c ∈ (traverse options Receiver.passive root ⟨fs, {}⟩).candidates,
        Candidate.ofPath c.path = c := by
  intro h
  have hmem : (⟨"a\\b", ["a\\b"]⟩ : Candidate)
      ∈ (traverse {} Receiver.passive ⟨.here, []⟩ ⟨slanted, {}⟩).candidates := by
    rw [candidates_slanted]
    exact List.mem_singleton_self _
  have hsame := h slanted {} ⟨.here, []⟩ (by decide) _ hmem
  exact absurd hsame (by decide)

end Walk

end BundleManifest
