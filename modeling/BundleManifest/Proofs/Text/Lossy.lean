/-
# BundleManifest.Proofs.Text.Lossy — what the lossy reading of bytes loses

`decode` keeps every ill-formed byte as an escaped byte, and `decodeLossy` writes one replacement character
for every ill-formed piece. They differ in nothing else: `Blurred` relates two texts of which the second
has replacement characters where the first has escaped bytes, and the two readings of any bytes are related
by it (`blurred_decode`). So they agree exactly where `decodeStrict` takes the bytes
(`decodeLossy_eq_decode_iff`, `exists_decodeStrict_iff`), and where they do not, what is read lossily is the
text of other bytes.
-/
import BundleManifest.Proofs.Text.Marked
import BundleManifest.Proofs.Text.Pieces
import BundleManifest.Text.Blank

namespace BundleManifest

/-- The second text is the first with some escaped bytes blurred: each run of them has become one
replacement character. -/
inductive Blurred : Text → Text → Prop
  | nil : Blurred [] []
  | keep {c : CodePoint} (hc : c.isSurrogate = false) {t u : Text} (h : Blurred t u) :
    Blurred (c :: t) (c :: u)
  | blur {piece : Bytes} (hpiece : piece ≠ []) {t u : Text} (h : Blurred t u) :
    Blurred (piece.map Utf8.escaped ++ t) (CodePoint.replacement :: u)

/-- An escaped byte is a surrogate. -/
theorem Utf8.isSurrogate_escaped (b : UInt8) : (escaped b).isSurrogate = true := by
  have hb : b.toNat < 256 := b.toNat_lt
  have hval : (escaped b).val = 0xDC00 + b.toNat := CodePoint.val_ofNat (by omega)
  simp only [CodePoint.isSurrogate, hval, Bool.and_eq_true, decide_eq_true_eq]
  omega

namespace Blurred

variable {t u : Text}

/-- Nothing is left that has no encoding of its own. -/
theorem isPlain (h : Blurred t u) : u.IsPlain := by
  induction h with
  | nil => exact List.forall_mem_nil _
  | keep hc h ih => exact List.forall_mem_cons.mpr ⟨hc, ih⟩
  | blur hpiece h ih => exact List.forall_mem_cons.mpr ⟨by decide, ih⟩

/-- A text without surrogates stays as it is. -/
theorem eq_iff (h : Blurred t u) : u = t ↔ t.IsPlain := by
  constructor
  · rintro rfl
    exact h.isPlain
  · intro ht
    induction h with
    | nil => rfl
    | keep hc h ih => rw [ih (List.forall_mem_cons.mp ht).2]
    | @blur piece hpiece t u h ih =>
      obtain ⟨b, hb⟩ := List.exists_mem_of_ne_nil piece hpiece
      have hplain := ht (Utf8.escaped b) (List.mem_append_left _ (List.mem_map_of_mem hb))
      rw [Utf8.isSurrogate_escaped] at hplain
      cases hplain

theorem mem {c : CodePoint} (h : Blurred t u) (hc : c ∈ u) : c = CodePoint.replacement ∨ c ∈ t := by
  induction h with
  | nil => exact absurd hc List.not_mem_nil
  | keep _ h ih =>
    rcases List.mem_cons.mp hc with rfl | hc
    · exact Or.inr List.mem_cons_self
    · exact (ih hc).imp_right (List.mem_cons_of_mem _)
  | blur _ h ih =>
    rcases List.mem_cons.mp hc with rfl | hc
    · exact Or.inl rfl
    · exact (ih hc).imp_right (List.mem_append_right _)

theorem eq_nil (h : Blurred t []) : t = [] := by
  cases h
  rfl

theorem head?_eq_some {c : CodePoint} (h : Blurred t u) (hc : u.head? = some c) :
    c = CodePoint.replacement ∨ t.head? = some c := by
  cases h with
  | nil => cases hc
  | keep _ h => exact Or.inr hc
  | blur _ h => exact Or.inl (Option.some.inj hc).symm

theorem append {t' u' : Text} (h : Blurred t u) (h' : Blurred t' u') : Blurred (t ++ t') (u ++ u') := by
  induction h with
  | nil => exact h'
  | keep hc h ih => exact .keep hc ih
  | blur hpiece h ih =>
    rw [List.append_assoc]
    exact .blur hpiece ih

theorem reverse (h : Blurred t u) : Blurred t.reverse u.reverse := by
  induction h with
  | nil => exact .nil
  | keep hc h ih =>
    rw [List.reverse_cons, List.reverse_cons]
    exact ih.append (.keep hc .nil)
  | @blur piece hpiece t u h ih =>
    rw [List.reverse_append, List.reverse_cons, ← List.map_reverse]
    have hback : piece.reverse ≠ [] := by simpa using hpiece
    have hlast : Blurred (piece.reverse.map Utf8.escaped) [CodePoint.replacement] := by
      simpa using Blurred.blur hback .nil
    exact ih.append hlast

/-- Where nothing is dropped from the front of a text, nothing is dropped afterwards, unless replacement
characters are. -/
theorem dropWhile_eq (h : Blurred t u) {p : CodePoint → Bool} (hp : p CodePoint.replacement = false)
    (ht : t.dropWhile p = t) : u.dropWhile p = u := by
  cases h with
  | nil => rfl
  | @keep c hc t u h =>
    have hfirst : p c = false := by
      rw [Bool.eq_false_iff]
      intro hpc
      have hlength := (List.dropWhile_suffix (l := t) p).length_le
      rw [List.dropWhile_cons_of_pos hpc] at ht
      rw [ht, List.length_cons] at hlength
      omega
    exact List.dropWhile_cons_of_neg (by simp [hfirst])
  | blur hpiece h => exact List.dropWhile_cons_of_neg (by simp [hp])

/-- A text that is trimmed stays so. -/
theorem trim_eq (h : Blurred t u) (ht : Text.trim t = t) : Text.trim u = u := by
  have hblank : CodePoint.isBlank CodePoint.replacement = false := by decide
  have hstart : Text.trimStart CodePoint.isBlank t = t := by
    have hsuffix : Text.trimStart CodePoint.isBlank t <:+ t := List.dropWhile_suffix _
    have hprefix : Text.trim t <+: Text.trimStart CodePoint.isBlank t := List.rdropWhile_prefix _ _
    apply hsuffix.eq_of_length_le
    rw [ht] at hprefix
    exact hprefix.length_le
  have hend : t.reverse.dropWhile CodePoint.isBlank = t.reverse := by
    unfold Text.trim Text.trimEnd at ht
    rw [hstart] at ht
    exact List.reverse_injective (ht.trans (List.reverse_reverse t).symm)
  have hstart' : Text.trimStart CodePoint.isBlank u = u := h.dropWhile_eq hblank hstart
  unfold Text.trim Text.trimEnd
  rw [hstart', h.reverse.dropWhile_eq hblank hend, List.reverse_reverse]

end Blurred

namespace Utf8

/-! ## Ill-formed pieces -/

/-- A byte that continues sequences starts none. -/
theorem scalarAt_of_isTail {x : UInt8} (hx : isTail x = true) (rest : Bytes) :
    scalarAt x rest = .error (.start, 1) := by
  simp only [isTail, Bool.and_eq_true, decide_eq_true_eq] at hx
  unfold scalarAt
  rw [if_neg (by omega), if_pos (by omega)]

theorem isTail_of_isSecond {b x : UInt8} (h : isSecond b x = true) : isTail x = true := by
  obtain ⟨hlow, hhigh, -⟩ := isSecond_iff.mp h
  simp only [isTail, Bool.and_eq_true, decide_eq_true_eq]
  exact ⟨hlow, hhigh⟩

/-- After its first byte, an ill-formed piece holds only bytes that continue sequences. -/
theorem tails_of_scalarAt {b : UInt8} {rest : Bytes} {fault : Fault} {length : Nat}
    (h : scalarAt b rest = .error (fault, length)) :
    ∀ x ∈ rest.take (length - 1), isTail x = true := by
  have hsecond : ∀ x, isSecond b x = true → isTail x = true := fun _ => isTail_of_isSecond
  unfold scalarAt at h
  extract_lets n at h
  (repeat' split at h)
  all_goals simp only [reduceCtorEq, Except.error.injEq, Prod.mk.injEq] at h
  all_goals obtain ⟨-, rfl⟩ := h
  all_goals simp_all

theorem length_le_of_scalarAt {b : UInt8} {rest : Bytes} {fault : Fault} {length : Nat}
    (h : scalarAt b rest = .error (fault, length)) : length - 1 ≤ rest.length := by
  unfold scalarAt at h
  extract_lets n at h
  (repeat' split at h)
  all_goals simp only [reduceCtorEq, Except.error.injEq, Prod.mk.injEq] at h
  all_goals simp [← h.2]

theorem taken_pos_of_scalarAt {b : UInt8} (hb : 0x80 ≤ b.toNat) {rest : Bytes} {c : CodePoint}
    {taken : Nat} (h : scalarAt b rest = .ok (c, taken)) : 0 < taken := by
  unfold scalarAt at h
  rw [if_neg (by omega)] at h
  (repeat' split at h)
  all_goals simp only [reduceCtorEq, Except.ok.injEq, Prod.mk.injEq] at h
  all_goals omega

/-- What is read is a scalar value: an escaped byte would have been read from that byte alone. -/
theorem isSurrogate_of_scalarAt {b : UInt8} {rest : Bytes} {c : CodePoint} {taken : Nat}
    (h : scalarAt b rest = .ok (c, taken)) : c.isSurrogate = false := by
  have hhead := encodePoint_of_scalarAt h
  rw [Bool.eq_false_iff]
  intro hc
  unfold encodePoint at hhead
  rw [hc] at hhead
  split at hhead
  · next hescaped =>
    simp only [isEscaped, Bool.and_eq_true, decide_eq_true_eq] at hescaped
    obtain ⟨hb, htake⟩ := List.cons.inj (Option.some.inj hhead)
    have hlow : 0x80 ≤ b.toNat := by
      rw [← hb, toNat_ofNat (by omega)]
      omega
    have hpos := taken_pos_of_scalarAt hlow h
    have hle := taken_le_of_scalarAt h
    have hlength := congrArg List.length htake
    rw [List.length_take, List.length_nil] at hlength
    omega
  · cases hhead

/-- Bytes that continue sequences and stand alone are escaped one by one. -/
theorem decode_append_of_tails {piece : Bytes} (h : ∀ x ∈ piece, isTail x = true) (rest : Bytes) :
    decode (piece ++ rest) = piece.map escaped ++ decode rest := by
  induction piece with
  | nil => rfl
  | cons x piece ih =>
    obtain ⟨hx, hpiece⟩ := List.forall_mem_cons.mp h
    rw [List.cons_append, decode, scalarAt_of_isTail hx]
    exact congrArg (escaped x :: ·) (ih hpiece)

/-- The lossy reading blurs the exact one. -/
theorem blurred_decode (bytes : Bytes) : Blurred (decode bytes) (decodeLossy bytes) := by
  fun_induction decodeLossy bytes with
  | case1 =>
    rw [decode]
    exact .nil
  | case2 b rest c taken h ih =>
    rw [decode, h]
    exact .keep (isSurrogate_of_scalarAt h) ih
  | case3 b rest fault length h ih =>
    have hpiece := decode_append_of_tails (tails_of_scalarAt h) (rest.drop (length - 1))
    rw [List.take_append_drop] at hpiece
    rw [decode, h]
    show Blurred (escaped b :: decode rest) _
    rw [hpiece]
    have hne : b :: rest.take (length - 1) ≠ [] := List.cons_ne_nil _ _
    exact .blur hne ih

/-! ## Well-formed bytes -/

theorem exists_decodeStrictFrom_iff (bytes : Bytes) (offset : Nat) :
    (∃ t, decodeStrictFrom offset bytes = .ok t) ↔ (decode bytes).IsPlain := by
  fun_induction decode bytes generalizing offset with
  | case1 => exact iff_of_true ⟨[], by rw [decodeStrictFrom]⟩ (List.forall_mem_nil _)
  | case2 b rest c taken h ih =>
    have hplain : Text.IsPlain (c :: decode (rest.drop taken)) ↔ (decode (rest.drop taken)).IsPlain :=
      List.forall_mem_cons.trans (and_iff_right (isSurrogate_of_scalarAt h))
    rw [hplain, ← ih (offset + taken + 1), decodeStrictFrom, h]
    cases hrest : decodeStrictFrom (offset + taken + 1) (rest.drop taken) with
    | error e => simp [hrest, Except.map]
    | ok t => simp [hrest, Except.map]
  | case3 b rest e h ih =>
    rw [decodeStrictFrom, h]
    refine iff_of_false nofun fun hplain => ?_
    have hescaped := (List.forall_mem_cons.mp hplain).1
    rw [isSurrogate_escaped] at hescaped
    cases hescaped

/-- The strict reading takes the bytes that are read exactly without an escaped byte. -/
theorem exists_decodeStrict_iff {bytes : Bytes} :
    (∃ t, decodeStrict bytes = .ok t) ↔ (decode bytes).IsPlain :=
  exists_decodeStrictFrom_iff bytes 0

/-- Well-formed bytes are read alike, and no others. -/
theorem decodeLossy_eq_decode_iff {bytes : Bytes} :
    decodeLossy bytes = decode bytes ↔ ∃ t, decodeStrict bytes = .ok t :=
  (blurred_decode bytes).eq_iff.trans exists_decodeStrict_iff.symm

/-- A text without surrogates is read exactly from the bytes that it is encoded as. -/
theorem decode_of_encode {t : Text} (ht : t.IsPlain) {bytes : Bytes} (h : encode t = .ok bytes) :
    decode bytes = t := by
  induction t generalizing bytes with
  | nil =>
    cases h
    rw [decode]
  | cons c t ih =>
    obtain ⟨hc, hrest⟩ := List.forall_mem_cons.mp ht
    obtain ⟨first, rest, taken, rfl, hscalar, htail⟩ := scalarAt_of_encode hc h
    rw [decode, hscalar]
    exact congrArg (c :: ·) (ih hrest htail)

/-- What is read lossily is the text of some bytes. These are the bytes that were read exactly if those are
well-formed. -/
theorem exists_encode_decodeLossy (bytes : Bytes) :
    ∃ others, encode (decodeLossy bytes) = .ok others ∧ decode others = decodeLossy bytes ∧
      (others = bytes ↔ ∃ t, decodeStrict bytes = .ok t) := by
  obtain ⟨others, hothers⟩ := exists_encode (blurred_decode bytes).isPlain
  have hdecode := decode_of_encode (blurred_decode bytes).isPlain hothers
  refine ⟨others, hothers, hdecode, ?_⟩
  rw [← decodeLossy_eq_decode_iff, ← hdecode, decode_inj]

/-! ## Bytes below 0x80 -/

/-- Reading lossily starts anew at every byte below 0x80. -/
theorem decodeLossy_append (bytes rest : Bytes) {x : UInt8} (hx : x.toNat < 0x80) :
    decodeLossy (bytes ++ x :: rest)
      = decodeLossy bytes ++ CodePoint.ofNat x.toNat :: decodeLossy rest := by
  fun_induction decodeLossy bytes with
  | case1 =>
    have hscalar : scalarAt x rest = .ok (CodePoint.ofNat x.toNat, 0) := if_pos hx
    rw [List.nil_append, decodeLossy, hscalar]
    rfl
  | case2 b front c taken h ih =>
    rw [List.cons_append, decodeLossy, scalarAt_append_of_ok h hx rest]
    show c :: decodeLossy ((front ++ x :: rest).drop taken) = c :: (decodeLossy (front.drop taken) ++ _)
    rw [List.drop_append_of_le_length (taken_le_of_scalarAt h), ih]
  | case3 b front fault length h ih =>
    obtain ⟨fault', happend⟩ := scalarAt_append_of_error h hx rest
    rw [List.cons_append, decodeLossy, happend]
    show CodePoint.replacement :: decodeLossy ((front ++ x :: rest).drop (length - 1))
      = CodePoint.replacement :: (decodeLossy (front.drop (length - 1)) ++ _)
    rw [List.drop_append_of_le_length (length_le_of_scalarAt h), ih]

theorem decodeLossy_append_of_ascii (bytes : Bytes) {ending : Bytes} (h : ∀ x ∈ ending, x.toNat < 0x80) :
    decodeLossy (bytes ++ ending)
      = decodeLossy bytes ++ ending.map fun x => CodePoint.ofNat x.toNat := by
  induction ending generalizing bytes with
  | nil => simp
  | cons x ending ih =>
    obtain ⟨hx, hending⟩ := List.forall_mem_cons.mp h
    have hrest := ih [] hending
    rw [List.nil_append, decodeLossy, List.nil_append] at hrest
    rw [decodeLossy_append _ _ hx, hrest, List.map_cons]

/-- A mark at the start of bytes is read as its code point. -/
theorem not_mark_prefix {bytes : Bytes} (hmark : markPoint ∉ decode bytes) : ¬ mark <+: bytes := by
  rintro ⟨more, rfl⟩
  have hread : scalarAt 0xEF ([0xBB, 0xBF] ++ more) = .ok (markPoint, 2) :=
    scalarAt_encodeScalar (by decide) (by decide) more
  apply hmark
  show markPoint ∈ decode (0xEF :: ([0xBB, 0xBF] ++ more))
  rw [decode, hread]
  exact List.mem_cons_self

section
variable {bytes ending : Bytes} (hending : ∀ x ∈ ending, x.toNat < 0x80)
include hending

theorem not_mem_mark_of_mem {x : UInt8} (hx : x ∈ ending) : x ∉ mark := by
  intro hmem
  have hhigh : ∀ y ∈ mark, 0x80 ≤ y.toNat := by simp [mark]
  exact Nat.not_lt.mpr (hhigh x hmem) (hending x hx)

/-- A line break does not complete a mark. -/
theorem not_mark_prefix_append (h : ¬ mark <+: bytes) : ¬ mark <+: bytes ++ ending := by
  intro hwhole
  rcases List.prefix_or_prefix_of_prefix hwhole (List.prefix_append bytes ending) with hmark | hbytes
  · exact h hmark
  obtain ⟨rest, hrest⟩ := hbytes
  rw [← hrest, List.prefix_append_right_inj] at hwhole
  cases rest with
  | nil =>
    rw [List.append_nil] at hrest
    exact h (hrest ▸ List.prefix_rfl)
  | cons x rest =>
    refine not_mem_mark_of_mem hending (hwhole.subset List.mem_cons_self) ?_
    rw [← hrest]
    exact List.mem_append_right _ List.mem_cons_self

theorem append_prefix_mark_iff : bytes ++ ending <+: mark ↔ ending = [] ∧ bytes <+: mark := by
  constructor
  · intro h
    have hnil : ending = [] := by
      apply List.eq_nil_iff_forall_not_mem.mpr
      intro x hx
      exact not_mem_mark_of_mem hending hx (h.subset (List.mem_append_right _ hx))
    rw [hnil, List.append_nil] at h
    exact ⟨hnil, h⟩
  · rintro ⟨rfl, h⟩
    rwa [List.append_nil]

/-- A file without the code point of the mark is read lossily up to its line break. If it is nothing but
the beginning of a mark, it holds no text. -/
theorem decodeMarked_append (hmark : markPoint ∉ decode bytes) :
    decodeMarked (bytes ++ ending)
      = if ending = [] ∧ bytes <+: mark then [] else decodeLossy (bytes ++ ending) := by
  have hunmarked := not_mark_prefix hmark
  have hwhole := not_mark_prefix_append hending hunmarked
  unfold decodeMarked
  rw [if_neg (fun h => hwhole (List.isPrefixOf_iff_prefix.mp h))]
  refine if_congr ?_ rfl rfl
  rw [Bool.and_eq_true, decide_eq_true_eq, List.isPrefixOf_iff_prefix, append_prefix_mark_iff hending,
    and_iff_right_iff_imp]
  rintro ⟨rfl, h⟩
  -- what is as long as the mark would be the mark
  refine Nat.lt_of_not_le fun hlength => hunmarked ?_
  rw [List.append_nil] at hlength
  rw [h.eq_of_length_le hlength]

end

end Utf8

end BundleManifest
