/-
# BundleManifest.Proofs.RuleSet.Written — rule files mean the lines that are written to them

A `RuleFile` says how lines are written: with or without a byte order mark, and each line with a line
break of its own. What is read from its bytes is the lines again, except that blank lines may be lost
(`padded_linesOf`). Neither these nor the blank lines and comments that somebody inserts make a
difference to the rules, so an application has the rules of the lines that were meant
(`load_written`).
-/
import BundleManifest.Proofs.FileSystem.Changes
import BundleManifest.Proofs.Pattern.Parsing
import BundleManifest.Proofs.Text.Breaks
import BundleManifest.Proofs.Text.Marked
import BundleManifest.RuleSet.Source

namespace BundleManifest

/-! ## Lines among others that say nothing -/

/-- Some lines, and the same lines with others inserted that say nothing. -/
inductive Padded : List Text → List Text → Prop
  | nil : Padded [] []
  | keep (line : Text) {lines more : List Text} (h : Padded lines more) :
    Padded (line :: lines) (line :: more)
  | insert {line : Text} (hline : SaysNothing line) {lines more : List Text}
    (h : Padded lines more) : Padded lines (line :: more)

theorem Padded.refl (lines : List Text) : Padded lines lines := by
  induction lines with
  | nil => exact .nil
  | cons line lines ih => exact .keep line ih

/-- Lines that say nothing give nothing. -/
theorem Padded.filterMap_eq {α : Type} {lines more : List Text} (h : Padded lines more)
    {meaning : Text → Option α} (hmeaning : ∀ line, SaysNothing line → meaning line = none) :
    more.filterMap meaning = lines.filterMap meaning := by
  induction h with
  | nil => rfl
  | keep line h ih => rw [List.filterMap_cons, List.filterMap_cons, ih]
  | insert hline h ih => rw [List.filterMap_cons, hmeaning _ hline, ih]

/-- Inserted lines that say nothing do not change the rules. -/
theorem RuleSet.parse_padded {basic basic' enhanced enhanced' : List Text}
    (hbasic : Padded basic basic') (henhanced : Padded enhanced enhanced') :
    parse basic' enhanced' = parse basic enhanced := by
  unfold parse
  rw [hbasic.filterMap_eq fun line => cleanLine?_eq_none_iff.mpr,
    henhanced.filterMap_eq fun line hline => Pattern.parse?_eq_none_iff.mpr (Or.inl hline)]

/-! ## Rule files -/

/-- How lines are written to a rule file. -/
structure RuleFile where
  /-- Whether the file begins with a byte order mark. -/
  marked : Bool := false
  /-- The lines that are ended, each with its line break. -/
  ended : List (Text × LineBreak)
  /-- The last line, if no line break ends it. -/
  last : Option Text := none
  deriving Repr

namespace RuleFile

/-- The lines of a rule file. -/
def lines (f : RuleFile) : List Text := f.ended.map Prod.fst ++ f.last.toList

/-- The text of a rule file, without a byte order mark. -/
def text (f : RuleFile) : Text :=
  (f.ended.flatMap fun line => line.1 ++ line.2.text) ++ f.last.getD []

/-- The bytes of a rule file. -/
def bytes (f : RuleFile) : Except Utf8.Unencodable Bytes :=
  (Utf8.encode f.text).map ((if f.marked then Utf8.mark else []) ++ ·)

/-- The lines have an encoding, and nothing in them looks like the end of a line. Without a mark the file
does not begin with the code point of the mark. -/
structure IsPlain (f : RuleFile) : Prop where
  plain : ∀ line ∈ f.lines, line.IsPlain
  unbroken : ∀ line ∈ f.lines, line.IsUnbroken
  unmarked : f.marked = false → ∀ line ∈ f.lines.head?, line.head? ≠ some Utf8.markPoint

/-! ## Reading -/

/-- The lines of a text are those that were written. Empty lines may be missing. The text may also have
lost a line feed that the carriage return before it has taken. -/
theorem padded_lines {ended : List (Text × LineBreak)} {last : Option Text}
    (h : ∀ line ∈ lines { ended, last }, line.IsUnbroken) :
    Padded (Text.lines (text { ended, last })) (lines { ended, last }) ∧
      ∀ t : Text, text { ended, last } = CodePoint.ofChar '\n' :: t →
        Padded (Text.lines t) (lines { ended, last }) := by
  have hempty : SaysNothing [] := by decide
  induction ended with
  | nil =>
    cases last with
    | none =>
      have hlines : Text.lines [] = [] := Text.lines_of_isUnbroken (List.forall_mem_nil _)
      refine ⟨?_, nofun⟩
      show Padded (Text.lines []) []
      rw [hlines]
      exact .nil
    | some line =>
      have hline : line.IsUnbroken := h line List.mem_cons_self
      constructor
      · show Padded line.lines [line]
        rw [Text.lines_of_isUnbroken hline]
        split
        · next hnil =>
          rw [hnil]
          exact .insert hempty .nil
        · exact .keep line .nil
      · rintro t rfl
        exact absurd List.mem_cons_self (hline.not_mem (by decide))
  | cons first ended ih =>
    obtain ⟨line, b⟩ := first
    have hline : line.IsUnbroken := h line List.mem_cons_self
    obtain ⟨hwhole, hafter⟩ := ih fun other hother => h other (List.mem_cons_of_mem line hother)
    have htext : text { ended := (line, b) :: ended, last }
        = line ++ (b.text ++ text { ended, last }) := by
      simp [text]
    have hlines : lines { ended := (line, b) :: ended, last } = line :: lines { ended, last } := rfl
    rw [htext, hlines]
    constructor
    · by_cases hmerged : b = .carriageReturn ∧
          (text { ended, last }).head? = some (CodePoint.ofChar '\n')
      · -- the next line is empty, and its line feed belongs to this line
        obtain ⟨rfl, hhead⟩ := hmerged
        obtain ⟨t, ht⟩ := List.head?_eq_some_iff.mp hhead
        have hboth : line ++ (LineBreak.carriageReturn.text ++ text { ended, last })
            = line ++ (LineBreak.both.text ++ t) := by
          rw [ht]
          rfl
        rw [hboth, Text.lines_append_break (b := .both) hline (fun hb => by cases hb)]
        exact .keep line (hafter t ht)
      · rw [Text.lines_append_break hline fun hb hhead => hmerged ⟨hb, hhead⟩]
        exact .keep line hwhole
    · intro t ht
      cases line with
      | nil =>
        cases b with
        | lineFeed =>
          obtain ⟨-, rfl⟩ := List.cons.inj ht
          exact .insert hempty hwhole
        | carriageReturn =>
          exact absurd (List.cons.inj ht).1 (by decide)
        | both =>
          exact absurd (List.cons.inj ht).1 (by decide)
      | cons c line =>
        obtain ⟨rfl, -⟩ := List.cons.inj ht
        exact absurd List.mem_cons_self (hline.not_mem (by decide))

theorem isPlain_break (b : LineBreak) : b.text.IsPlain := by
  have hfeed : (CodePoint.ofChar '\n').isSurrogate = false := by decide
  have hreturn : (CodePoint.ofChar '\r').isSurrogate = false := by decide
  cases b <;> simp [Text.IsPlain, LineBreak.text, hfeed, hreturn]

theorem isPlain_text {f : RuleFile} (h : ∀ line ∈ f.lines, line.IsPlain) : f.text.IsPlain := by
  intro c hc
  rcases List.mem_append.mp hc with hc | hc
  · obtain ⟨⟨line, b⟩, hmem, hc⟩ := List.mem_flatMap.mp hc
    rcases List.mem_append.mp hc with hc | hc
    · exact h line (List.mem_append_left _ (List.mem_map_of_mem hmem)) c hc
    · exact isPlain_break b c hc
  · cases hlast : f.last with
    | none =>
      rw [hlast] at hc
      cases hc
    | some line =>
      rw [hlast] at hc
      refine h line (List.mem_append_right _ ?_) c hc
      rw [hlast]
      exact List.mem_singleton_self line

/-- A file begins with the code point of the mark only if its first line does. -/
theorem head?_text_ne {f : RuleFile} (h : ∀ line ∈ f.lines.head?, line.head? ≠ some Utf8.markPoint) :
    f.text.head? ≠ some Utf8.markPoint := by
  obtain ⟨marked, ended, last⟩ := f
  cases ended with
  | nil =>
    cases last with
    | none => exact nofun
    | some line => exact h line rfl
  | cons first ended =>
    obtain ⟨line, b⟩ := first
    cases line with
    | nil => cases b <;> exact fun hhead => absurd (Option.some.inj hhead) (by decide)
    | cons c line => exact h (c :: line) rfl

/-- What is read from the bytes of a rule file is the lines, except for empty ones. -/
theorem padded_linesOf {f : RuleFile} (hf : f.IsPlain) {bytes : Bytes} (hbytes : f.bytes = .ok bytes) :
    Padded (RuleSet.linesOf bytes) f.lines := by
  have hplain : f.text.IsPlain := isPlain_text hf.plain
  have hdecoded : Utf8.decodeMarked bytes = f.text := by
    unfold RuleFile.bytes at hbytes
    cases hencode : Utf8.encode f.text with
    | error e =>
      rw [hencode] at hbytes
      cases hbytes
    | ok encoded =>
      rw [hencode] at hbytes
      cases hmarked : f.marked with
      | true =>
        rw [hmarked] at hbytes
        obtain rfl : Utf8.mark ++ encoded = bytes := Except.ok.inj hbytes
        rw [Utf8.decodeMarked_mark_append]
        exact Utf8.decodeLossy_of_encode hplain hencode
      | false =>
        rw [hmarked] at hbytes
        obtain rfl : encoded = bytes := Except.ok.inj hbytes
        exact Utf8.decodeMarked_of_encode hplain (head?_text_ne (hf.unmarked hmarked)) hencode
  unfold RuleSet.linesOf
  rw [hdecoded]
  exact (padded_lines hf.unbroken).1

theorem exists_bytes {f : RuleFile} (hf : f.IsPlain) : ∃ bytes, f.bytes = .ok bytes := by
  obtain ⟨encoded, hencode⟩ := Utf8.exists_encode (isPlain_text hf.plain)
  unfold bytes
  rw [hencode]
  exact ⟨_, rfl⟩

end RuleFile

namespace RuleSet

/-- A file that can be read gives its lines. -/
theorem reader_of_read {fs : FileSystem} {path : Path} {bytes : Bytes}
    (h : fs.read path.text = .ok bytes) : reader fs path = .ok { lines := linesOf bytes } := by
  unfold reader
  rw [h]

/-- Lines that are written to both files in any way, blank lines and comments among them, are the rules of
the application, whether the lines of the pattern file are read or given. -/
theorem load_written {basicFile patternFile : RuleFile} (hbasicFile : basicFile.IsPlain)
    (hpatternFile : patternFile.IsPlain) {basic enhanced : List Text}
    (hbasic : Padded basic basicFile.lines) (henhanced : Padded enhanced patternFile.lines) :
    ∃ basicBytes patternBytes,
      basicFile.bytes = .ok basicBytes ∧ patternFile.bytes = .ok patternBytes ∧
      ∀ fs root, fs.read (Path.child root RuleSet.basicFile).text = .ok basicBytes →
        fs.read (Path.child root RuleSet.patternFile).text = .ok patternBytes →
        ∃ read given, load (reader fs) root none = .ok read ∧
          load (reader fs) root (some enhanced) = .ok given ∧
          read.rules = parse basic enhanced ∧ given.rules = parse basic enhanced := by
  obtain ⟨basicBytes, hbasicBytes⟩ := RuleFile.exists_bytes hbasicFile
  obtain ⟨patternBytes, hpatternBytes⟩ := RuleFile.exists_bytes hpatternFile
  refine ⟨basicBytes, patternBytes, hbasicBytes, hpatternBytes, ?_⟩
  intro fs root hreadBasic hreadPattern
  have hbasicLines : Padded (linesOf basicBytes) basicFile.lines :=
    RuleFile.padded_linesOf hbasicFile hbasicBytes
  have hpatternLines : Padded (linesOf patternBytes) patternFile.lines :=
    RuleFile.padded_linesOf hpatternFile hpatternBytes
  unfold load
  simp only [reader_of_read hreadBasic, reader_of_read hreadPattern, bind, Except.bind, pure,
    Except.pure]
  refine ⟨_, _, rfl, rfl, ?_, ?_⟩
  · show parse (linesOf basicBytes) (linesOf patternBytes) = parse basic enhanced
    rw [← parse_padded hbasicLines hpatternLines]
    exact parse_padded hbasic henhanced
  · show parse (linesOf basicBytes) enhanced = parse basic enhanced
    rw [← parse_padded hbasicLines (.refl enhanced)]
    exact parse_padded hbasic (.refl enhanced)

/-- Names behind a byte order mark, one of them accented. The carriage return after the first of them
makes one line break with the line feed of the empty line, and a comment follows. -/
def namesFile : RuleFile where
  marked := true
  ended := [("secret", .carriageReturn), ("", .lineFeed), ("# n", .both)]
  last := some "été"

/-- A pattern and a blank line. -/
def patternsFile : RuleFile where
  ended := [("*.log", .lineFeed), (" ", .carriageReturn)]

/-- A directory with these two files. -/
def ruled : FileSystem :=
  FileSystem.empty.applyAll
    [.write ".rscignore" [0xEF, 0xBB, 0xBF, 0x73, 0x65, 0x63, 0x72, 0x65, 0x74, 0x0D, 0x0A, 0x23,
        0x20, 0x6E, 0x0D, 0x0A, 0xC3, 0xA9, 0x74, 0xC3, 0xA9],
      .write ".rsconnectignore" [0x2A, 0x2E, 0x6C, 0x6F, 0x67, 0x0A, 0x20, 0x0D]]

theorem load_written_ruled :
    namesFile.IsPlain ∧ patternsFile.IsPlain ∧ Padded ["secret", "été"] namesFile.lines ∧
      Padded ["*.log"] patternsFile.lines ∧
      ∃ read given, load (reader ruled) ⟨.here, []⟩ none = .ok read ∧
        load (reader ruled) ⟨.here, []⟩ (some ["*.log"]) = .ok given ∧
        read.rules = parse ["secret", "été"] ["*.log"] ∧
        given.rules = parse ["secret", "été"] ["*.log"] := by
  have hnames : namesFile.IsPlain := ⟨by decide, by decide, nofun⟩
  have hpatterns : patternsFile.IsPlain := ⟨by decide, by decide, by decide⟩
  have hnamesLines : Padded ["secret", "été"] namesFile.lines :=
    .keep _ (.insert (by decide) (.insert (by decide) (.keep _ .nil)))
  have hpatternsLines : Padded ["*.log"] patternsFile.lines := .keep _ (.insert (by decide) .nil)
  obtain ⟨basicBytes, patternBytes, hbasicBytes, hpatternBytes, hload⟩ :=
    load_written hnames hpatterns hnamesLines hpatternsLines
  have hbasic : namesFile.bytes = .ok _ := rfl
  have hpattern : patternsFile.bytes = .ok _ := rfl
  obtain rfl := Except.ok.inj (hbasicBytes.symm.trans hbasic)
  obtain rfl := Except.ok.inj (hpatternBytes.symm.trans hpattern)
  exact ⟨hnames, hpatterns, hnamesLines, hpatternsLines,
    hload ruled ⟨.here, []⟩ (by decide) (by decide)⟩

end RuleSet

end BundleManifest
