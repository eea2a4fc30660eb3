/-
# BundleManifest.Proofs.CommandLine.Screen — what lines lose on their way to a stream

A control sequence is an escape and an opening bracket, then parameters, intermediate characters and a
final one. A text that is written to a stream stays as it is exactly if it holds none
(`plain_eq_self_iff`), and otherwise fewer bytes are written (`length_encode_of_sublist`). So lines on a
stream are the lines of a file, byte by byte, exactly if no line holds a control sequence
(`encode_screenLines_iff`).
-/
import BundleManifest.CommandLine.Screen
import BundleManifest.Manifest.File
import BundleManifest.Proofs.Text.Utf8
import Mathlib

namespace BundleManifest.CommandLine

/-! ## Control sequences -/

/-- A text starts with the parameters, the intermediate characters and the final one of a control
sequence, `n` code points in all. -/
def EndsSequence (t : Text) (n : Nat) : Prop :=
  ∃ parameters between last after, t = parameters ++ (between ++ last :: after) ∧
    (∀ c ∈ parameters, isParameter c = true) ∧ (∀ c ∈ between, isIntermediate c = true) ∧
    isFinal last = true ∧ n = parameters.length + between.length + 1

/-- A text holds a control sequence, with anything before and behind it. -/
def HoldsSequence (t : Text) : Prop :=
  ∃ before rest n, t = before ++ escapePoint :: CodePoint.ofChar '[' :: rest ∧ EndsSequence rest n

theorem not_isParameter_of_isIntermediate {c : CodePoint} (h : isIntermediate c = true) :
    isParameter c = false := by
  simp only [isIntermediate, isParameter, Bool.and_eq_true, Bool.and_eq_false_iff,
    decide_eq_true_eq, decide_eq_false_iff_not] at h ⊢
  omega

theorem not_isParameter_of_isFinal {c : CodePoint} (h : isFinal c = true) :
    isParameter c = false := by
  simp only [isFinal, isParameter, Bool.and_eq_true, Bool.and_eq_false_iff, decide_eq_true_eq,
    decide_eq_false_iff_not] at h ⊢
  omega

theorem not_isIntermediate_of_isFinal {c : CodePoint} (h : isFinal c = true) :
    isIntermediate c = false := by
  simp only [isFinal, isIntermediate, Bool.and_eq_true, Bool.and_eq_false_iff, decide_eq_true_eq,
    decide_eq_false_iff_not] at h ⊢
  omega

/-- A run of code points of a class ends at the first one outside it. -/
theorem takeWhile_run {p : CodePoint → Bool} {run rest : Text} (hrun : ∀ c ∈ run, p c = true)
    (hrest : ∀ c ∈ rest.head?, p c = false) : (run ++ rest).takeWhile p = run := by
  rw [List.takeWhile_append_of_pos hrun]
  cases rest with
  | nil => simp
  | cons c rest =>
    have hc : p c = false := hrest c rfl
    rw [List.takeWhile_cons_of_neg (by simp [hc]), List.append_nil]

theorem drop_takeWhile (p : CodePoint → Bool) (t : Text) :
    t.drop (t.takeWhile p).length = t.dropWhile p := by
  have hsplit : t.takeWhile p ++ t.dropWhile p = t := List.takeWhile_append_dropWhile
  calc t.drop (t.takeWhile p).length
      = (t.takeWhile p ++ t.dropWhile p).drop (t.takeWhile p).length := by rw [hsplit]
    _ = t.dropWhile p := List.drop_left

/-- What comes after two runs. -/
theorem getElem?_runs (p q : CodePoint → Bool) (t : Text) :
    t[(t.takeWhile p).length + ((t.dropWhile p).takeWhile q).length]?
      = ((t.dropWhile p).dropWhile q).head? := by
  rw [← List.getElem?_drop, drop_takeWhile, ← List.head?_drop, drop_takeWhile]

/-- The parameters and the intermediate characters of a control sequence are runs that are as long as
possible, as no code point is of two classes. -/
theorem endsSequence_iff_runs {t : Text} {n : Nat} :
    EndsSequence t n ↔
      ((t.dropWhile isParameter).dropWhile isIntermediate).head?.any isFinal = true ∧
        n = (t.takeWhile isParameter).length
          + ((t.dropWhile isParameter).takeWhile isIntermediate).length + 1 := by
  constructor
  · rintro ⟨parameters, between, last, after, rfl, hparameters, hbetween, hlast, rfl⟩
    have hstop : ∀ c ∈ (between ++ last :: after).head?, isParameter c = false := by
      intro c hc
      cases between with
      | nil =>
        cases hc
        exact not_isParameter_of_isFinal hlast
      | cons b between =>
        cases hc
        exact not_isParameter_of_isIntermediate (hbetween _ List.mem_cons_self)
    have hstop' : ∀ c ∈ (last :: after).head?, isIntermediate c = false := by
      intro c hc
      cases hc
      exact not_isIntermediate_of_isFinal hlast
    have hrest := drop_takeWhile isParameter (parameters ++ (between ++ last :: after))
    have hrest' := drop_takeWhile isIntermediate (between ++ last :: after)
    rw [takeWhile_run hparameters hstop, List.drop_left] at hrest
    rw [takeWhile_run hbetween hstop', List.drop_left] at hrest'
    rw [takeWhile_run hparameters hstop, ← hrest, ← hrest', takeWhile_run hbetween hstop']
    exact ⟨hlast, rfl⟩
  · rintro ⟨hfinal, rfl⟩
    obtain ⟨last, hhead, hlast⟩ := (Option.any_eq_true _ _).mp hfinal
    obtain ⟨after, hafter⟩ := List.head?_eq_some_iff.mp hhead
    refine ⟨_, _, last, after, ?_, fun c hc => List.mem_takeWhile_imp hc,
      fun c hc => List.mem_takeWhile_imp hc, hlast, rfl⟩
    rw [← hafter, List.takeWhile_append_dropWhile, List.takeWhile_append_dropWhile]

/-- The search for the end of a control sequence finds it, and nothing else. -/
theorem sequenceRest?_eq_some_iff {t : Text} {n : Nat} :
    sequenceRest? t = some n ↔
      ∃ rest m, t = CodePoint.ofChar '[' :: rest ∧ EndsSequence rest m ∧ n = m + 1 := by
  cases t with
  | nil => simp [sequenceRest?]
  | cons c rest =>
    simp only [sequenceRest?, drop_takeWhile, getElem?_runs, Option.ite_none_right_eq_some,
      Bool.and_eq_true, decide_eq_true_eq, endsSequence_iff_runs]
    constructor
    · rintro ⟨⟨rfl, hfinal⟩, h⟩
      exact ⟨rest, _, rfl, ⟨hfinal, rfl⟩, (Option.some.inj h).symm⟩
    · rintro ⟨_, _, heq, ⟨hfinal, rfl⟩, rfl⟩
      obtain ⟨rfl, rfl⟩ := List.cons.inj heq
      exact ⟨⟨rfl, hfinal⟩, rfl⟩

/-! ## Texts without control sequences -/

theorem holdsSequence_cons_iff {c : CodePoint} {t : Text} :
    HoldsSequence (c :: t) ↔
      (c = escapePoint ∧ ∃ n, sequenceRest? t = some n) ∨ HoldsSequence t := by
  constructor
  · rintro ⟨before, rest, n, heq, hends⟩
    cases before with
    | nil =>
      obtain ⟨rfl, rfl⟩ := List.cons.inj heq
      exact Or.inl ⟨rfl, n + 1, sequenceRest?_eq_some_iff.mpr ⟨rest, n, rfl, hends, rfl⟩⟩
    | cons b before => exact Or.inr ⟨before, rest, n, (List.cons.inj heq).2, hends⟩
  · rintro (⟨rfl, n, hn⟩ | ⟨before, rest, n, rfl, hends⟩)
    · obtain ⟨rest, m, rfl, hends, -⟩ := sequenceRest?_eq_some_iff.mp hn
      exact ⟨[], rest, m, rfl, hends⟩
    · exact ⟨c :: before, rest, n, rfl, hends⟩

/-- Nothing is added to a text and nothing is moved in it. -/
theorem plain_sublist (t : Text) : (plain t).Sublist t := by
  fun_induction plain t with
  | case1 => exact List.Sublist.refl []
  | case2 c rest n h ih => exact (ih.trans (List.drop_sublist n rest)).cons c
  | case3 c rest h ih => exact ih.cons_cons c

/-- A text stays as it is exactly if it holds no control sequence. -/
theorem plain_eq_self_iff (t : Text) : plain t = t ↔ ¬ HoldsSequence t := by
  fun_induction plain t with
  | case1 =>
    refine ⟨fun _ => ?_, fun _ => rfl⟩
    rintro ⟨before, rest, n, heq, -⟩
    cases before <;> cases heq
  | case2 c rest n h ih =>
    -- a control sequence starts here, and at least the escape is lost
    obtain ⟨hc, hn⟩ : c = escapePoint ∧ sequenceRest? rest = some n := by
      split at h
      · next hc => exact ⟨hc, h⟩
      · cases h
    have hshort : (plain (rest.drop n)).length < (c :: rest).length := by
      have hlength := ((plain_sublist (rest.drop n)).trans (List.drop_sublist n rest)).length_le
      rw [List.length_cons]
      omega
    constructor
    · intro heq
      rw [heq] at hshort
      exact absurd hshort (Nat.lt_irrefl _)
    · intro hnone
      exact absurd (holdsSequence_cons_iff.mpr (Or.inl ⟨hc, n, hn⟩)) hnone
  | case3 c rest h ih =>
    have hhere : ¬ (c = escapePoint ∧ ∃ n, sequenceRest? rest = some n) := by
      rintro ⟨rfl, n, hn⟩
      rw [dif_pos rfl, hn] at h
      cases h
    rw [holdsSequence_cons_iff, or_iff_right hhere, ← ih]
    constructor
    · exact fun heq => (List.cons.inj heq).2
    · exact fun heq => congrArg (c :: ·) heq

/-! ## Bytes -/

/-- What is left of a text has fewer bytes, unless it is the whole text. -/
theorem length_encode_of_sublist {t u : Text} (h : t.Sublist u) {bytes : Bytes}
    (hu : Utf8.encode u = .ok bytes) :
    ∃ left, Utf8.encode t = .ok left ∧ left.length ≤ bytes.length ∧
      (left.length = bytes.length → t = u) := by
  induction h generalizing bytes with
  | slnil => exact ⟨bytes, hu, Nat.le_refl _, fun _ => rfl⟩
  | @cons t u c h ih =>
    obtain ⟨head, tail, hhead, htail, rfl⟩ := Utf8.encode_cons_iff.mp hu
    obtain ⟨left, hleft, hle, -⟩ := ih htail
    have hpos : 0 < head.length := List.length_pos_iff.mpr (Utf8.encodePoint_ne_nil hhead)
    rw [List.length_append]
    exact ⟨left, hleft, by omega, fun heq => by omega⟩
  | @cons_cons t u c h ih =>
    obtain ⟨head, tail, hhead, htail, rfl⟩ := Utf8.encode_cons_iff.mp hu
    obtain ⟨left, hleft, hle, hsame⟩ := ih htail
    refine ⟨head ++ left, Utf8.encode_cons_iff.mpr ⟨head, left, hhead, hleft, rfl⟩, ?_, ?_⟩
    · rw [List.length_append, List.length_append]
      omega
    · intro heq
      rw [List.length_append, List.length_append] at heq
      rw [hsame (by omega)]

/-- Every line on a stream is left of the line of a file. -/
theorem screenLines_sublist (files : List Text) :
    (screenLines files).Sublist (Manifest.text files) := by
  induction files with
  | nil => exact List.Sublist.refl []
  | cons x files ih =>
    show (plain x ++ [CodePoint.ofChar '\n'] ++ screenLines files).Sublist _
    rw [Manifest.text_cons, List.append_assoc]
    exact (plain_sublist x).append (ih.cons_cons _)

theorem screenLines_eq_text_iff (files : List Text) :
    screenLines files = Manifest.text files ↔ ∀ x ∈ files, ¬ HoldsSequence x := by
  induction files with
  | nil => simp [screenLines]
  | cons x files ih =>
    have hlines : screenLines (x :: files) = plain x ++ (Manifest.lineEnd :: screenLines files) := by
      show plain x ++ [CodePoint.ofChar '\n'] ++ screenLines files = _
      rw [List.append_assoc]
      rfl
    rw [List.forall_mem_cons, ← ih, ← plain_eq_self_iff, hlines, Manifest.text_cons]
    constructor
    · intro heq
      -- no part can make up for what another one has lost
      have hx := (plain_sublist x).length_le
      have hrest := (screenLines_sublist files).length_le
      have hlength := congrArg List.length heq
      simp only [List.length_append, List.length_cons] at hlength
      obtain ⟨hfirst, hsecond⟩ := List.append_inj heq (by omega)
      exact ⟨hfirst, (List.cons.inj hsecond).2⟩
    · rintro ⟨hfirst, hsecond⟩
      rw [hfirst, hsecond]

/-- Lines on a stream have the bytes of the lines of a file exactly if no line holds a control
sequence. -/
theorem encode_screenLines_iff {files : List Text} {bytes : Bytes}
    (h : Utf8.encode (Manifest.text files) = .ok bytes) :
    Utf8.encode (screenLines files) = .ok bytes ↔ ∀ x ∈ files, ¬ HoldsSequence x := by
  rw [← screenLines_eq_text_iff]
  obtain ⟨left, hleft, -, hsame⟩ := length_encode_of_sublist (screenLines_sublist files) h
  constructor
  · intro hbytes
    cases hleft.symm.trans hbytes
    exact hsame rfl
  · intro heq
    rw [heq]
    exact h

end BundleManifest.CommandLine
